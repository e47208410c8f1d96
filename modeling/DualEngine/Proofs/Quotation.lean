import DualEngine.Text.Quoted
import Mathlib

/-! # Quoted text reads back

Every escape says itself where it ends, and the closing quote is the first one that is not escaped.
So a quoted text can be told from what follows it, and different texts are quoted differently.
-/
namespace DualEngine.Text

/-- The number that hexadecimal digits in lower case write. -/
def hexValue (digits : List Char) : Nat :=
  digits.foldl (fun n c => 16 * n + if c.isDigit then c.toNat - 48 else c.toNat - 87) 0

theorem length_hexDigits (width n : Nat) : (hexDigits width n).length = width := by
  induction width generalizing n with
  | zero => rfl
  | succ width ih => simp [hexDigits, ih]

theorem hexValue_hexDigits (width n : Nat) : hexValue (hexDigits width n) = n % 16 ^ width := by
  induction width generalizing n with
  | zero => simp [hexDigits, hexValue, Nat.mod_one]
  | succ width ih =>
    have hdigit : ∀ d < 16, (if d.digitChar.isDigit then d.digitChar.toNat - 48
        else d.digitChar.toNat - 87) = d := by decide
    have hfront := ih (n / 16)
    unfold hexValue at hfront ⊢
    rw [hexDigits, List.foldl_append, hfront, List.foldl_cons, List.foldl_nil,
      hdigit _ (Nat.mod_lt _ (by decide)), pow_succ', Nat.mod_mul]
    omega

theorem newline_not_mem_hexDigits (width n : Nat) : '\n' ∉ hexDigits width n := by
  induction width generalizing n with
  | zero => simp [hexDigits]
  | succ width ih =>
    have hdigit : ∀ d < 16, '\n' ≠ Nat.digitChar d := by decide
    simp [hexDigits, ih, hdigit _ (Nat.mod_lt n (by decide : 0 < 16))]

/-- The character at the start of a quoted text, and what stands after it. -/
def readEscape : List Char → Option (Char × List Char)
  | '\\' :: 'n' :: rest => some ('\n', rest)
  | '\\' :: 'r' :: rest => some ('\r', rest)
  | '\\' :: 't' :: rest => some ('\t', rest)
  | '\\' :: 'x' :: rest => some (.ofNat (hexValue (rest.take 2)), rest.drop 2)
  | '\\' :: 'u' :: rest => some (.ofNat (hexValue (rest.take 4)), rest.drop 4)
  | '\\' :: 'U' :: rest => some (.ofNat (hexValue (rest.take 8)), rest.drop 8)
  | '\\' :: c :: rest => some (c, rest)
  | c :: rest => some (c, rest)
  | [] => none

theorem readEscape_plain {c : Char} (hc : c ≠ '\\') (rest : List Char) :
    readEscape (c :: rest) = some (c, rest) := by
  unfold readEscape
  split <;> simp_all

theorem readEscape_hex (width : Nat) {c : Char} (hc : c.toNat < 16 ^ width) (rest : List Char) :
    (Char.ofNat (hexValue ((hexDigits width c.toNat ++ rest).take width)),
      (hexDigits width c.toNat ++ rest).drop width) = (c, rest) := by
  rw [List.take_left' (length_hexDigits _ _), List.drop_left' (length_hexDigits _ _),
    hexValue_hexDigits, Nat.mod_eq_of_lt hc, Char.ofNat_toNat]

/-- The two quotes. -/
def IsQuote (c : Char) : Prop := c = '\'' ∨ c = '"'

theorem isQuote_quoteFor (cs : List Char) : IsQuote (quoteFor cs) := by
  unfold quoteFor
  split
  · exact .inr rfl
  · exact .inl rfl

theorem readEscape_escape {quote : Char} (hquote : IsQuote quote) (c : Char) (rest : List Char) :
    readEscape (escape quote c ++ rest) = some (c, rest) := by
  unfold escape
  split_ifs with hmarked hline hreturn htab hplain hsmall hmedium
  · rcases hquote with rfl | rfl <;> simp only [Bool.or_eq_true, beq_iff_eq] at hmarked <;>
      rcases hmarked with rfl | rfl <;> rfl
  · rw [eq_of_beq hline]
    rfl
  · rw [eq_of_beq hreturn]
    rfl
  · rw [eq_of_beq htab]
    rfl
  · exact readEscape_plain (by simp_all) rest
  · exact congrArg some (readEscape_hex 2 hsmall rest)
  · exact congrArg some (readEscape_hex 4 hmedium rest)
  · exact congrArg some (readEscape_hex 8 c.val.toNat_lt rest)

theorem escaped_append_inj {quote : Char} (hquote : IsQuote quote) {cs ds r s : List Char}
    (h : cs.flatMap (escape quote) ++ quote :: r = ds.flatMap (escape quote) ++ quote :: s) :
    cs = ds ∧ r = s := by
  have hslash : quote ≠ '\\' := by rcases hquote with rfl | rfl <;> decide
  -- The closing quote is no escape: the escape of the quote starts with a backslash.
  have hend : ∀ {c : Char} {t u : List Char}, quote :: t ≠ escape quote c ++ u := by
    intro c t u heq
    have hread := congrArg readEscape heq
    rw [readEscape_plain hslash, readEscape_escape hquote] at hread
    obtain ⟨rfl, rfl⟩ : quote = c ∧ t = u := by simpa using hread
    simp [escape] at heq
  induction cs generalizing ds with
  | nil =>
    cases ds with
    | nil => simpa using h
    | cons d ds => exact absurd (by simpa using h) hend
  | cons c cs ih =>
    cases ds with
    | nil => exact absurd (by simpa using h.symm) hend
    | cons d ds =>
      simp only [List.flatMap_cons, List.append_assoc] at h
      have hread := congrArg readEscape h
      rw [readEscape_escape hquote, readEscape_escape hquote] at hread
      obtain ⟨rfl, hrest⟩ : c = d ∧ _ := by simpa using hread
      obtain ⟨rfl, rfl⟩ := ih hrest
      exact ⟨rfl, rfl⟩

/-- A quoted text can be told from what follows it. -/
theorem quoted_append_inj {a b r s : String} (h : quoted a ++ r = quoted b ++ s) :
    a = b ∧ r = s := by
  simp only [← String.toList_inj, quoted, String.toList_append, String.toList_ofList,
    List.cons_append, List.append_assoc, List.nil_append, List.cons.injEq] at h
  obtain ⟨hquote, h⟩ := h
  rw [← hquote] at h
  obtain ⟨hlist, hrest⟩ := escaped_append_inj (isQuote_quoteFor _) h
  exact ⟨String.toList_inj.mp hlist, String.toList_inj.mp hrest⟩

theorem quoted_inj {a b : String} : quoted a = quoted b ↔ a = b := by
  refine ⟨fun h => ?_, congrArg quoted⟩
  have happend : quoted a ++ "" = quoted b ++ "" := congrArg (· ++ "") h
  exact (quoted_append_inj happend).1

theorem newline_not_mem_escape {quote : Char} (hquote : IsQuote quote) (c : Char) :
    '\n' ∉ escape quote c := by
  have hhex (mark : Char) (hmark : '\n' ≠ mark) (width : Nat) :
      '\n' ∉ '\\' :: mark :: hexDigits width c.toNat := by
    simp [hmark, newline_not_mem_hexDigits]
  unfold escape
  split_ifs with hmarked hline hreturn htab hplain hsmall hmedium
  · rcases hquote with rfl | rfl <;> simp only [Bool.or_eq_true, beq_iff_eq] at hmarked <;>
      rcases hmarked with rfl | rfl <;> decide
  · decide
  · decide
  · decide
  · exact fun hmem => hline (beq_iff_eq.mpr (List.mem_singleton.mp hmem).symm)
  · exact hhex 'x' (by decide) 2
  · exact hhex 'u' (by decide) 4
  · exact hhex 'U' (by decide) 8

theorem newline_not_mem_quoted (a : String) : '\n' ∉ (quoted a).toList := by
  have hquote := isQuote_quoteFor a.toList
  have hne : '\n' ≠ quoteFor a.toList := by rcases hquote with h | h <;> rw [h] <;> decide
  simp [quoted, hne, newline_not_mem_escape hquote]

end DualEngine.Text
