import BlockScript.CommandLine.FileTree

/-!
The lines of an input, said without the splitter: each ends with the only newline byte in it, and
only the last may be without one. The texts that they encode are what the decoder gives.
-/
namespace BlockScript.CommandLine

/-- Bytes and their lines. -/
inductive Lines : List UInt8 → List (List UInt8) → Prop
  | none : Lines [] []
  | unended {line} (nonempty : line ≠ []) (unbroken : 10 ∉ line) : Lines line [line]
  | ended {line rest pieces} (unbroken : 10 ∉ line) (others : Lines rest pieces) :
      Lines (line ++ 10 :: rest) ((line ++ [10]) :: pieces)

/-- A byte that ends no line belongs to the first one. -/
theorem Lines.cons {byte : UInt8} (hbyte : byte ≠ 10) {rest line : List UInt8}
    {others : List (List UInt8)} (h : Lines rest (line :: others)) :
    Lines (byte :: rest) ((byte :: line) :: others) := by
  cases h with
  | unended _ unbroken =>
    exact .unended (List.cons_ne_nil _ _) (List.not_mem_cons_of_ne_of_not_mem hbyte.symm unbroken)
  | ended unbroken others =>
    exact .ended (List.not_mem_cons_of_ne_of_not_mem hbyte.symm unbroken) others

/-- The first lines of an input are the lines of their bytes. -/
theorem Lines.before {before after : List (List UInt8)} {bytes line : List UInt8}
    (h : Lines bytes (before ++ line :: after)) : Lines before.flatten before := by
  induction before generalizing bytes with
  | nil => exact .none
  | cons first before ih =>
    rw [List.cons_append] at h
    -- The first line has another after it, so it is no unended one.
    generalize hpieces : before ++ line :: after = pieces at h
    cases h with
    | unended => exact absurd hpieces (List.append_ne_nil_of_right_ne_nil _ (List.cons_ne_nil _ _))
    | @ended text rest _ unbroken others =>
      rw [← hpieces] at others
      rw [List.flatten_cons, List.append_assoc]
      exact .ended unbroken (ih others)

/-- The bytes of a text in UTF-8. -/
def encode (text : String) : List UInt8 := text.toUTF8.data.toList

end BlockScript.CommandLine
