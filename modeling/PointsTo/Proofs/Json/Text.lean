import Mathlib.Data.List.TakeDrop
import PointsTo.Json.Printer
import PointsTo.Json.Reader

/-! What is printed is read back. -/
namespace PointsTo.Json

/-- Documents that say the same however they are written: no number beside the natural ones, and every
string is text. -/
inductive Plain : Json → Prop
  | null : Plain .null
  | bool (b : Bool) : Plain (.bool b)
  | nat (n : Nat) : Plain (.nat n)
  | str (s : String) : Plain (.str (some s))
  | arr {items : List Json} (h : ∀ item ∈ items, Plain item) : Plain (.arr items)
  | obj {entries : List (Option String × Json)}
    (hkeys : ∀ entry ∈ entries, entry.1.isSome = true) (h : ∀ entry ∈ entries, Plain entry.2) :
    Plain (.obj entries)

namespace Reader

theorem skipBlank_newline (level : Nat) (cs : List Char) :
    skipBlank (newline level ++ cs) = skipBlank cs := by
  refine List.dropWhile_append_of_pos fun c hc => ?_
  rcases List.mem_cons.1 hc with rfl | hc
  · rfl
  · rw [(List.mem_replicate.1 hc).2]
    rfl

theorem skipBlank_cons {c : Char} (h : isBlank c = false) (cs : List Char) :
    skipBlank (c :: cs) = c :: cs := by
  simp [skipBlank, h]

/-! Strings. -/

/-- What the reader makes of a printed character. -/
def pieceOf (c : Char) : Piece :=
  if c.toNat < 0x20 ∧ c ≠ '\x08' ∧ c ≠ '\x0c' ∧ c ≠ '\n' ∧ c ≠ '\r' ∧ c ≠ '\t' then .unit c.toNat
  else .plain c

private theorem hexValue?_digitChar : ∀ n < 16, hexValue? (Nat.digitChar n) = some n := by decide

private theorem hexUnit?_of_lt {n : Nat} (h : n < 0x20) :
    hexUnit? '0' '0' (Nat.digitChar (n / 16)) (Nat.digitChar (n % 16)) = some n := by
  have hzero : hexValue? '0' = some 0 := rfl
  rw [hexUnit?, hzero, hexValue?_digitChar _ (by omega), hexValue?_digitChar _ (by omega)]
  simp only [Option.bind_eq_bind, Option.bind_some, Option.pure_def, Option.some.injEq]
  omega

private theorem pieces_plain {c : Char} (hquote : c ≠ '"') (hslash : c ≠ '\\')
    (hc : ¬ c.toNat < 0x20) (cs : List Char) :
    pieces (c :: cs) = (pieces cs).map fun r => (.plain c :: r.1, r.2) := by
  rw [pieces]
  · simp only [hc, if_false]
    cases pieces cs <;> rfl
  · exact hquote
  · exact fun _ _ _ _ _ h _ => hslash h
  · exact fun _ _ h _ => hslash h

private theorem pieces_short {c e : Char} (h : escaped? c = some e) (cs : List Char) :
    pieces ('\\' :: c :: cs) = (pieces cs).map fun r => (.plain e :: r.1, r.2) := by
  rw [pieces]
  · simp only [h]
    cases pieces cs <;> rfl
  · rintro _ _ _ _ _ rfl _
    cases h

private theorem pieces_unit {a b c d : Char} {n : Nat} (h : hexUnit? a b c d = some n)
    (cs : List Char) :
    pieces ('\\' :: 'u' :: a :: b :: c :: d :: cs) =
      (pieces cs).map fun r => (.unit n :: r.1, r.2) := by
  rw [pieces, h]
  cases pieces cs <;> rfl

/-- The pieces of a printed character come before those of the rest. -/
theorem pieces_escapeChar (c : Char) (cs : List Char) :
    pieces (escapeChar c ++ cs) = (pieces cs).map fun r => (pieceOf c :: r.1, r.2) := by
  unfold escapeChar
  -- the seven characters with a short escape
  iterate 7
    split
    · next h => subst h; exact pieces_short rfl cs
  split
  · next hb hf hn hr ht hc =>
    rw [pieceOf, if_pos ⟨hc, hb, hf, hn, hr, ht⟩]
    exact pieces_unit (hexUnit?_of_lt hc) cs
  · next hquote hslash _ _ _ _ _ hc =>
    rw [pieceOf, if_neg fun h => hc h.1]
    exact pieces_plain hquote hslash hc cs

theorem pieces_quoted (s cs : List Char) :
    pieces (s.flatMap escapeChar ++ '"' :: cs) = some (s.map pieceOf, cs) := by
  induction s with
  | nil => rfl
  | cons c s ih => rw [List.flatMap_cons, List.append_assoc, pieces_escapeChar, ih]; rfl

/-- A unit that is no surrogate stands for itself. -/
private theorem assemble_unit {n : Nat} (h : n < 0xD800) (parts : List Piece) :
    assemble (.unit n :: parts) = (assemble parts).map (Char.ofNat n :: ·) := by
  have hhigh : ¬ 0xD800 ≤ n := by omega
  have hlow : ¬ 0xDC00 ≤ n := by omega
  cases parts with
  | nil => simp [assemble, hhigh]
  | cons part parts => cases part <;> simp [assemble, hhigh, hlow]

theorem assemble_map_pieceOf (s : List Char) : assemble (s.map pieceOf) = some s := by
  induction s with
  | nil => rfl
  | cons c s ih =>
    rw [List.map_cons, pieceOf]
    split
    · next h =>
      rw [assemble_unit (by omega), ih, Option.map_some, Char.ofNat_toNat]
    · rw [assemble, ih]
      rfl

theorem string_quoted (s : String) (cs : List Char) :
    string (s.toList.flatMap escapeChar ++ '"' :: cs) = some (some s, cs) := by
  simp [string, pieces_quoted, assemble_map_pieceOf]

/-! Numbers. -/

/-- What may follow a value in a printed text: nothing that would make a number longer. -/
def Stops : List Char → Prop
  | [] => True
  | c :: _ => c = ',' ∨ c = '\n'

theorem ofDigits_toDigits (n : Nat) : ofDigits (Nat.toDigits 10 n) = n := by
  rw [ofDigits, ← Nat.ofDigitChars_eq_foldl, Nat.ofDigitChars_ten_toDigits]

/-- A number is printed without superfluous zeros. -/
theorem toDigits_eq_zero_cons {n : Nat} {cs : List Char} (h : Nat.toDigits 10 n = '0' :: cs) :
    cs = [] := by
  induction n using Nat.strongRecOn generalizing cs with
  | _ n ih =>
    rw [Nat.toDigits_eq_if (by decide)] at h
    split at h
    · exact (List.cons.inj h).2.symm
    · next hn =>
      cases hd : Nat.toDigits 10 (n / 10) with
      | nil => exact absurd hd Nat.toDigits_ne_nil
      | cons c ds =>
        rw [hd, List.cons_append] at h
        obtain ⟨rfl, -⟩ := List.cons.inj h
        obtain rfl := ih (n / 10) (by omega) hd
        have hvalue := ofDigits_toDigits (n / 10)
        rw [hd] at hvalue
        have hzero : n / 10 = 0 := hvalue.symm
        omega

theorem Stops.not_isDigit {rest : List Char} (h : Stops rest) :
    rest.takeWhile Char.isDigit = [] ∧ rest.dropWhile Char.isDigit = rest := by
  match rest, h with
  | [], _ => exact ⟨rfl, rfl⟩
  | _ :: _, .inl rfl => exact ⟨rfl, rfl⟩
  | _ :: _, .inr rfl => exact ⟨rfl, rfl⟩

theorem toDigits_eq_cons (n : Nat) :
    ∃ c cs, Nat.toDigits 10 n = c :: cs ∧ c.isDigit = true := by
  cases h : Nat.toDigits 10 n with
  | nil => exact absurd h Nat.toDigits_ne_nil
  | cons c cs =>
    have hc : c ∈ Nat.toDigits 10 n := h ▸ List.mem_cons_self
    exact ⟨c, cs, rfl, Nat.isDigit_of_mem_toDigits (by decide) (by decide) hc⟩

theorem digits_toDigits (n : Nat) {rest : List Char} (h : Stops rest) :
    digits (Nat.toDigits 10 n ++ rest) = some (Nat.toDigits 10 n, rest) := by
  have hall : ∀ c ∈ Nat.toDigits 10 n, c.isDigit = true :=
    fun c hc => Nat.isDigit_of_mem_toDigits (by decide) (by decide) hc
  rw [digits, List.span_eq_takeWhile_dropWhile, List.takeWhile_append_of_pos hall, List.dropWhile_append_of_pos hall,
    h.not_isDigit.1, h.not_isDigit.2, List.append_nil]
  split
  · next heq => exact absurd (Prod.mk.inj heq).1 Nat.toDigits_ne_nil
  · rfl

theorem number_toDigits (n : Nat) {rest : List Char} (h : Stops rest) :
    number (Nat.toDigits 10 n ++ rest) = some (.nat n, rest) := by
  have hinteger : integer (Nat.toDigits 10 n ++ rest) = some (Nat.toDigits 10 n, rest) := by
    simp only [integer, digits_toDigits n h, Option.bind_eq_bind, Option.bind_some]
    split
    · next heq => cases toDigits_eq_zero_cons heq
    · rfl
  have hend : fraction rest = some ([], rest) ∧ exponent rest = some ([], rest) := by
    cases rest with
    | nil => exact ⟨rfl, rfl⟩
    | cons c cs => rcases h with rfl | rfl <;> exact ⟨rfl, rfl⟩
  have hunsigned : unsigned (Nat.toDigits 10 n ++ rest) = some (.nat n, rest) := by
    simp [unsigned, hinteger, hend, ofDigits_toDigits]
  obtain ⟨c, cs, hn, hc⟩ := toDigits_eq_cons n
  rw [hn] at hunsigned ⊢
  unfold number
  split
  · next heq =>
    obtain ⟨rfl, -⟩ := List.cons.inj heq
    cases hc
  · exact hunsigned

/-! Values. -/

/-- Printed text starts with a character that is no blank and closes nothing. -/
theorem lines_eq_cons {json : Json} (h : Plain json) (level : Nat) :
    ∃ c cs, lines level json = c :: cs ∧ isBlank c = false ∧ c ≠ ']' := by
  cases h with
  | null => exact ⟨_, _, rfl, rfl, by decide⟩
  | bool b => cases b <;> exact ⟨_, _, rfl, rfl, by decide⟩
  | nat n =>
    obtain ⟨c, cs, hn, hc⟩ := toDigits_eq_cons n
    refine ⟨c, cs, hn, ?_, ?_⟩
    · simp only [isBlank, Bool.or_eq_false_iff, beq_eq_false_iff_ne]
      refine ⟨⟨⟨?_, ?_⟩, ?_⟩, ?_⟩ <;> rintro rfl <;> cases hc
    · rintro rfl
      cases hc
  | str s => exact ⟨_, _, rfl, rfl, by decide⟩
  | @arr items _ => cases items <;> exact ⟨_, _, rfl, rfl, by decide⟩
  | @obj entries _ _ => cases entries <;> exact ⟨_, _, rfl, rfl, by decide⟩

theorem skipBlank_lines {json : Json} (h : Plain json) (level : Nat) (cs : List Char) :
    skipBlank (lines level json ++ cs) = lines level json ++ cs := by
  obtain ⟨c, ds, hlines, hc, -⟩ := lines_eq_cons h level
  rw [hlines]
  exact skipBlank_cons hc _

/-- A document is read back from text that begins with it, once blanks are left out. -/
def ReadsBack (json : Json) : Prop :=
  ∀ (level fuel : Nat) (cs rest : List Char), skipBlank cs = lines level json ++ rest →
    (lines level json).length < fuel → Stops rest → value fuel cs = some (json, rest)

theorem readsBack_nat (n : Nat) : ReadsBack (.nat n) := by
  intro level fuel cs rest hcs hfuel hrest
  obtain ⟨fuel, rfl⟩ := Nat.exists_eq_succ_of_ne_zero (Nat.ne_zero_of_lt hfuel)
  have hnumber := number_toDigits n hrest
  rw [lines] at hcs
  rw [← hcs] at hnumber
  obtain ⟨c, ds, hn, hc⟩ := toDigits_eq_cons n
  rw [hn, List.cons_append] at hcs
  rw [value]
  have hne : ∀ d es, d.isDigit = false → skipBlank cs ≠ d :: es := by
    intro d es hd heq
    obtain ⟨rfl, -⟩ := List.cons.inj (hcs.symm.trans heq)
    exact Bool.false_ne_true (hd.symm.trans hc)
  -- a digit starts nothing but a number
  split
  · next heq => cases hcs.symm.trans heq
  iterate 6
    · next heq => exact absurd heq (hne _ _ rfl)
  · exact hnumber

theorem readsBack_str (s : String) : ReadsBack (.str (some s)) := by
  intro level fuel cs rest hcs hfuel hrest
  obtain ⟨fuel, rfl⟩ := Nat.exists_eq_succ_of_ne_zero (Nat.ne_zero_of_lt hfuel)
  rw [lines, quote, List.cons_append, List.append_assoc] at hcs
  rw [value, hcs]
  simp [string_quoted]

theorem stops_newline (level : Nat) (cs : List Char) : Stops (newline level ++ cs) := .inr rfl

theorem skipBlank_newline_cons (level : Nat) {c : Char} (h : isBlank c = false) (cs : List Char) :
    skipBlank (newline level ++ c :: cs) = c :: cs := by
  rw [skipBlank_newline, skipBlank_cons h]

/-- The items of an array, each on lines of its own, up to the closing bracket. -/
theorem items_lines {rest : List Json} {item : Json} (hplain : ∀ j ∈ item :: rest, Plain j)
    (hreads : ∀ j ∈ item :: rest, ReadsBack j) {level outer fuel : Nat} {cs tail : List Char}
    (hcs : skipBlank cs =
      lines level item ++ (itemLines level rest ++ (newline outer ++ ']' :: tail)))
    (hfuel : (lines level item ++ itemLines level rest).length + 1 < fuel) :
    items fuel cs = some (item :: rest, tail) := by
  obtain ⟨fuel, rfl⟩ := Nat.exists_eq_succ_of_ne_zero (Nat.ne_zero_of_lt hfuel)
  rw [List.length_append] at hfuel
  induction rest generalizing item fuel cs with
  | nil =>
    have hvalue := hreads item List.mem_cons_self level fuel cs _ hcs (by omega)
      (stops_newline outer _)
    simp [items, hvalue, itemLines, skipBlank_newline_cons outer (by rfl : isBlank ']' = false)]
  | cons next rest ih =>
    rw [itemLines, List.length_cons, List.length_append, List.length_append] at hfuel
    have hvalue := hreads item List.mem_cons_self level fuel cs _ hcs (by omega) (.inl rfl)
    obtain ⟨fuel, rfl⟩ := Nat.exists_eq_succ_of_ne_zero (show fuel ≠ 0 by omega)
    have hitems : items (fuel + 1) (newline level ++ (lines level next ++ (itemLines level rest ++
        (newline outer ++ ']' :: tail)))) = some (next :: rest, tail) := by
      refine ih (fun j hj => hplain j (.tail _ hj)) (fun j hj => hreads j (.tail _ hj)) ?_ fuel
        (by omega)
      rw [skipBlank_newline, skipBlank_lines (hplain next (by simp))]
    rw [items, hvalue]
    simp [itemLines, hitems, skipBlank_cons (by rfl : isBlank ',' = false)]

private theorem value_items {fuel : Nat} {cs ds : List Char} (h : skipBlank cs = '[' :: ds)
    (hclose : ∀ es, skipBlank ds ≠ ']' :: es) :
    value (fuel + 1) cs = (items fuel (skipBlank ds)).map fun r => (.arr r.1, r.2) := by
  simp only [value, h]
  cases items fuel (skipBlank ds) <;> rfl

theorem readsBack_arr {js : List Json} (hplain : ∀ j ∈ js, Plain j)
    (hreads : ∀ j ∈ js, ReadsBack j) : ReadsBack (.arr js) := by
  intro level fuel cs rest hcs hfuel hrest
  obtain ⟨fuel, rfl⟩ := Nat.exists_eq_succ_of_ne_zero (Nat.ne_zero_of_lt hfuel)
  cases js with
  | nil => simp [value, hcs, lines, skipBlank_cons (by rfl : isBlank ']' = false)]
  | cons item js =>
    have hfirst := skipBlank_lines (hplain item List.mem_cons_self) (level + 1)
    have hitems : items fuel (lines (level + 1) item ++ (itemLines (level + 1) js ++
        (newline level ++ ']' :: rest))) = some (item :: js, rest) := by
      refine items_lines hplain hreads (hfirst _) ?_
      simp only [lines, List.length_cons, List.length_append] at hfuel ⊢
      omega
    have htext : skipBlank cs = '[' :: (newline (level + 1) ++ (lines (level + 1) item ++
        (itemLines (level + 1) js ++ (newline level ++ ']' :: rest)))) := by
      rw [hcs, lines]
      simp only [List.cons_append, List.append_assoc, List.nil_append]
    rw [value_items htext, skipBlank_newline, hfirst, hitems]
    · rfl
    · intro es heq
      obtain ⟨c, ds, hlines, -, hclose⟩ :=
        lines_eq_cons (hplain item List.mem_cons_self) (level + 1)
      rw [skipBlank_newline, hfirst, hlines] at heq
      exact hclose (List.cons.inj heq).1

theorem skipBlank_entryLine (level : Nat) (entry : Option String × Json) (cs : List Char) :
    skipBlank (entryLine level entry ++ cs) = entryLine level entry ++ cs := by
  obtain ⟨key, item⟩ := entry
  rw [entryLine, quote]
  exact skipBlank_cons (by rfl : isBlank '"' = false) _

section Entry

variable {key : String} {item : Json} {es : List (Option String × Json)} {level fuel : Nat}
  {cs more rest tail : List Char} (hplain : Plain item) (hreads : ReadsBack item)
  (hcs : skipBlank cs = entryLine level (some key, item) ++ more)
  (hfuel : (entryLine level (some key, item)).length < fuel) (hmore : Stops more)

include hcs in
private theorem skipBlank_entry : skipBlank cs = '"' :: (key.toList.flatMap escapeChar ++
    '"' :: ':' :: ' ' :: (lines level item ++ more)) := by
  rw [hcs, entryLine, Option.getD_some, quote]
  simp only [List.cons_append, List.append_assoc, List.nil_append]

include hplain hreads hfuel hmore in
private theorem value_entry :
    value fuel (' ' :: (lines level item ++ more)) = some (item, more) := by
  refine hreads level fuel _ more (skipBlank_lines hplain level more) ?_ hmore
  simp only [entryLine, List.length_append] at hfuel
  omega

include hplain hreads hcs hfuel hmore

theorem entries_cons (hcomma : skipBlank more = ',' :: rest)
    (hrest : entries fuel rest = some (es, tail)) :
    entries (fuel + 1) cs = some ((some key, item) :: es, tail) := by
  simp [entries, skipBlank_entry hcs, string_quoted, value_entry hplain hreads hfuel hmore,
    skipBlank_cons (by rfl : isBlank ':' = false), hcomma, hrest]

theorem entries_last (hbrace : skipBlank more = '\x7d' :: tail) :
    entries (fuel + 1) cs = some ([(some key, item)], tail) := by
  simp [entries, skipBlank_entry hcs, string_quoted, value_entry hplain hreads hfuel hmore,
    skipBlank_cons (by rfl : isBlank ':' = false), hbrace]

end Entry

/-- The entries of an object, each on lines of its own, up to the closing brace. -/
theorem entries_lines {rest : List (Option String × Json)} {entry : Option String × Json}
    (hkeys : ∀ e ∈ entry :: rest, e.1.isSome = true) (hplain : ∀ e ∈ entry :: rest, Plain e.2)
    (hreads : ∀ e ∈ entry :: rest, ReadsBack e.2) {level outer fuel : Nat} {cs tail : List Char}
    (hcs : skipBlank cs =
      entryLine level entry ++ (entryLines level rest ++ (newline outer ++ '\x7d' :: tail)))
    (hfuel : (entryLine level entry ++ entryLines level rest).length + 1 < fuel) :
    entries fuel cs = some (entry :: rest, tail) := by
  obtain ⟨fuel, rfl⟩ := Nat.exists_eq_succ_of_ne_zero (Nat.ne_zero_of_lt hfuel)
  rw [List.length_append] at hfuel
  induction rest generalizing entry fuel cs with
  | nil =>
    obtain ⟨_ | key, item⟩ := entry
    · cases hkeys _ List.mem_cons_self
    exact entries_last (hplain _ List.mem_cons_self) (hreads _ List.mem_cons_self) hcs (by omega)
      (stops_newline outer _) (skipBlank_newline_cons outer rfl _)
  | cons next rest ih =>
    obtain ⟨_ | key, item⟩ := entry
    · cases hkeys _ List.mem_cons_self
    rw [entryLines, List.length_cons, List.length_append, List.length_append] at hfuel
    obtain ⟨fuel, rfl⟩ := Nat.exists_eq_succ_of_ne_zero (show fuel ≠ 0 by omega)
    have hentries : entries (fuel + 1) (newline level ++ (entryLine level next ++
        (entryLines level rest ++ (newline outer ++ '\x7d' :: tail)))) =
        some (next :: rest, tail) := by
      refine ih (fun e he => hkeys e (.tail _ he)) (fun e he => hplain e (.tail _ he))
        (fun e he => hreads e (.tail _ he)) ?_ fuel (by omega)
      rw [skipBlank_newline, skipBlank_entryLine]
    refine entries_cons (hplain _ List.mem_cons_self) (hreads _ List.mem_cons_self) hcs (by omega)
      (.inl rfl) ?_ hentries
    rw [entryLines, List.cons_append, skipBlank_cons rfl]
    simp only [List.append_assoc]

private theorem value_entries {fuel : Nat} {cs ds : List Char} (h : skipBlank cs = '\x7b' :: ds)
    (hclose : ∀ es, skipBlank ds ≠ '\x7d' :: es) :
    value (fuel + 1) cs = (entries fuel (skipBlank ds)).map fun r => (.obj r.1, r.2) := by
  simp only [value, h]
  cases entries fuel (skipBlank ds) <;> rfl

theorem readsBack_obj {es : List (Option String × Json)} (hkeys : ∀ e ∈ es, e.1.isSome = true)
    (hplain : ∀ e ∈ es, Plain e.2) (hreads : ∀ e ∈ es, ReadsBack e.2) : ReadsBack (.obj es) := by
  intro level fuel cs rest hcs hfuel hrest
  obtain ⟨fuel, rfl⟩ := Nat.exists_eq_succ_of_ne_zero (Nat.ne_zero_of_lt hfuel)
  cases es with
  | nil => simp [value, hcs, lines, skipBlank_cons (by rfl : isBlank '\x7d' = false)]
  | cons entry es =>
    have hentries : entries fuel (entryLine (level + 1) entry ++ (entryLines (level + 1) es ++
        (newline level ++ '\x7d' :: rest))) = some (entry :: es, rest) := by
      refine entries_lines hkeys hplain hreads (skipBlank_entryLine ..) ?_
      simp only [lines, List.length_cons, List.length_append] at hfuel ⊢
      omega
    have htext : skipBlank cs = '\x7b' :: (newline (level + 1) ++ (entryLine (level + 1) entry ++
        (entryLines (level + 1) es ++ (newline level ++ '\x7d' :: rest)))) := by
      rw [hcs, lines]
      simp only [List.cons_append, List.append_assoc, List.nil_append]
    rw [value_entries htext, skipBlank_newline, skipBlank_entryLine, hentries]
    · rfl
    · intro ds heq
      rw [skipBlank_newline, skipBlank_entryLine, entryLine, quote] at heq
      cases (List.cons.inj heq).1

theorem Plain.readsBack {json : Json} (h : Plain json) : ReadsBack json := by
  induction h with
  | null =>
    intro level fuel cs rest hcs hfuel _
    obtain ⟨fuel, rfl⟩ := Nat.exists_eq_succ_of_ne_zero (Nat.ne_zero_of_lt hfuel)
    simp [value, hcs, lines]
  | bool b =>
    intro level fuel cs rest hcs hfuel _
    obtain ⟨fuel, rfl⟩ := Nat.exists_eq_succ_of_ne_zero (Nat.ne_zero_of_lt hfuel)
    cases b <;> simp [value, hcs, lines]
  | nat n => exact readsBack_nat n
  | str s => exact readsBack_str s
  | arr h ih => exact readsBack_arr h ih
  | obj hkeys h ih => exact readsBack_obj hkeys h ih

end Reader

/-- A plain document is read back from its text. -/
theorem parse?_pretty {json : Json} (h : Plain json) : parse? json.pretty = some json := by
  have hread := Reader.Plain.readsBack h 0 (2 * (lines 0 json).length + 2) (lines 0 json) []
    (by simpa using Reader.skipBlank_lines h 0 []) (by omega) trivial
  simp [parse?, pretty, hread, Reader.skipBlank]

end PointsTo.Json
