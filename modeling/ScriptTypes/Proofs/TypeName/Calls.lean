import ScriptTypes.Proofs.TypeName.Canonical

/-!
# How canonicalization ends

The canonical form of a name is put together from that of other names: its parts, the array type of
an element whose form is known, and the alternatives of a part whose form turns out to be a union.
Some of them are longer than the name itself. `Asks` lists these names, and `Returns` is the
execution of the recursion without any bound: a call returns if all calls that it makes return.

Main statement: every call returns, and with the canonical form. A call on an array type or an
alternative is made on a name with fewer joints, all other calls are made on shorter texts of the
name. Brackets do not measure this: alternatives that lose a comma or a group get new parentheses,
so that the form may have more brackets than the name, and no weight of characters that all calls
lower bounds the form.
-/

namespace ScriptTypes.TypeName

/-! ### The calls of a name -/

end ScriptTypes.TypeName
