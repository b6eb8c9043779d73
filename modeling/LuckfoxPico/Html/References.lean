import LuckfoxPico.Text.Str

/-!
# Character references

The text that a browser shows for the characters of a page. The table of the named references is not
part of the layer.
-/

namespace Html

/-- What the text behind an `&` stands for, with the number of its characters that belong to the
reference. No reference stands for more characters than it has. -/
structure References where
  reference : Str → Option (Str × Nat)
  within : ∀ s r n, reference s = some (r, n) → n ≤ s.length
  shorter : ∀ s r n, reference s = some (r, n) → r.length ≤ n

namespace References

/-- `skip` characters belong to a reference that has been replaced. -/
def decodeFrom (refs : References) : (skip : Nat) → Str → Str
  | _, [] => []
  | skip + 1, _ :: s => decodeFrom refs skip s
  | 0, c :: s =>
    if c = '&' then
      match refs.reference s with
      | some (r, n) => r ++ decodeFrom refs n s
      | none => c :: decodeFrom refs 0 s
    else c :: decodeFrom refs 0 s

/-- The text that is shown. -/
def decode (refs : References) (s : Str) : Str := refs.decodeFrom 0 s

/-- No `&` of the text starts a reference. -/
def NoReference (refs : References) (s : Str) : Prop :=
  ∀ u v, s = u ++ '&' :: v → refs.reference v = none

end References

end Html
