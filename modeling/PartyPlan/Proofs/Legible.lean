import Mathlib.Data.List.Basic
import Mathlib.Data.List.TakeWhile
import PartyPlan.Json.Reader
import PartyPlan.Json.Text

/-! Texts that are read back. A value without floating-point numbers, whose whole numbers fit 64 bits, is
what its compact text is read as. A value is read up to the end of its text, whatever follows; only a
number has to be followed by something that is no part of a number. -/
namespace PartyPlan.Json

/-- A value that its text tells. Whole numbers have a sign only below zero. -/
inductive Legible : Json → Prop where
  | null : Legible null
  | bool (b : Bool) : Legible (bool b)
  | int {n : Int} (h : -(signedLimit64 : Int) ≤ n ∧ n < limit64) : Legible (int n)
  | str (s : String) : Legible (str s)
  | arr {items : List Json} (h : ∀ j ∈ items, Legible j) : Legible (arr items)
  | obj {fields : List (String × Json)} (h : ∀ f ∈ fields, Legible f.2) : Legible (obj fields)

theorem skipSpace_cons {c : Char} (h : isSpace c = false) (cs : List Char) :
    skipSpace (c :: cs) = c :: cs := by
  simp [skipSpace, h]

section Quoted

theorem hexValue?_hexDigits : ∀ n < 16, hexValue? (hexDigits.getD n '0') = some n := by decide

theorem charOfCode?_toNat (c : Char) : charOfCode? c.toNat = some c := by
  have hvalid : c.toNat.isValidChar := c.valid
  rw [charOfCode?, if_pos hvalid, Char.ofNat_toNat]

theorem readEscape_short {c ch : Char} (h : shortEscape? c = some ch) (rest : List Char) :
    readEscape (c :: rest) = some (ch, rest) := by
  rw [readEscape]
  · rw [h]
    rfl
  · rintro a b c d rest rfl
    cases h

theorem readEscape_code {c : Char} (h : c.toNat < 32) (rest : List Char) :
    readEscape ('u' :: '0' :: '0' :: hexDigits.getD (c.toNat / 16) '0' ::
      hexDigits.getD (c.toNat % 16) '0' :: rest) = some (c, rest) := by
  have hzero : hexValue? '0' = some 0 := rfl
  have hhigh := hexValue?_hexDigits (c.toNat / 16) (by omega)
  have hlow := hexValue?_hexDigits (c.toNat % 16) (by omega)
  have hcode : hexNumber? ['0', '0', hexDigits.getD (c.toNat / 16) '0',
      hexDigits.getD (c.toNat % 16) '0'] = some c.toNat := by
    simp only [hexNumber?, List.foldlM_cons, List.foldlM_nil, hzero, hhigh, hlow, Option.map_some,
      Option.bind_eq_bind, Option.bind_some, Option.pure_def]
    congr 1
    omega
  have hwhole : ¬ (0xD800 ≤ c.toNat ∧ c.toNat < 0xDC00) := by omega
  rw [readEscape, hcode]
  simp only [if_neg hwhole, charOfCode?_toNat, Option.map_some]

theorem readQuoted_backslash {cs rest : List Char} {c : Char} (h : readEscape cs = some (c, rest))
    (done : List Char) : readQuoted ('\\' :: cs) done = readQuoted rest (c :: done) := by
  rw [readQuoted]
  split
  next h' =>
    rw [h] at h'
    cases h'
    rfl
  next h' =>
    rw [h] at h'
    cases h'

theorem readQuoted_plain {c : Char} (hquote : c ≠ '"') (hslash : c ≠ '\\') (h : ¬ c.toNat < 32)
    (rest done : List Char) : readQuoted (c :: rest) done = readQuoted rest (c :: done) := by
  rw [readQuoted]
  · rw [if_neg h]
  · exact hquote
  · exact hslash

theorem readQuoted_short {c ch : Char} (h : shortEscape? c = some ch) (rest done : List Char) :
    readQuoted ('\\' :: c :: rest) done = readQuoted rest (ch :: done) :=
  readQuoted_backslash (readEscape_short h rest) done

/-- However a character is written inside quotes, it is read as itself. -/
theorem readQuoted_escape (c : Char) (rest done : List Char) :
    readQuoted (escape c ++ rest) done = readQuoted rest (c :: done) := by
  rw [escape]
  split
  next h => rw [h]; exact readQuoted_short rfl rest done
  split
  next h => rw [h]; exact readQuoted_short rfl rest done
  split
  next h => rw [h]; exact readQuoted_short rfl rest done
  split
  next h => rw [h]; exact readQuoted_short rfl rest done
  split
  next h => rw [h]; exact readQuoted_short rfl rest done
  split
  next h => rw [← c.ofNat_toNat, h]; exact readQuoted_short rfl rest done
  split
  next h => rw [← c.ofNat_toNat, h]; exact readQuoted_short rfl rest done
  split
  next h => exact readQuoted_backslash (readEscape_code h rest) done
  next hquote hslash _ _ _ _ _ h => exact readQuoted_plain hquote hslash h rest done

theorem readQuoted_flatMap (cs rest done : List Char) :
    readQuoted (cs.flatMap escape ++ '"' :: rest) done =
      some (String.ofList (done.reverse ++ cs), rest) := by
  induction cs generalizing done with
  | nil => rw [List.flatMap_nil, List.nil_append, readQuoted, List.append_nil]
  | cons c cs ih =>
    rw [List.flatMap_cons, List.append_assoc, readQuoted_escape, ih, List.reverse_cons,
      List.append_assoc]
    rfl

theorem toList_quoted (s : String) (rest : List Char) :
    (quoted s).toList ++ rest = '"' :: (s.toList.flatMap escape ++ '"' :: rest) := by
  simp [quoted]

theorem readQuoted_quoted (s : String) (rest : List Char) :
    readQuoted (s.toList.flatMap escape ++ '"' :: rest) [] = some (s, rest) := by
  rw [readQuoted_flatMap, List.reverse_nil, List.nil_append, String.ofList_toList]

end Quoted

section Number

def Stops (rest : List Char) : Prop := ∀ c ∈ rest.head?, isNumeral c = false

theorem stops_cons {c : Char} (h : isNumeral c = false) (rest : List Char) : Stops (c :: rest) := by
  intro d hd
  cases hd
  exact h

variable {cs rest : List Char}

theorem Stops.takeWhile (hs : Stops rest) (h : ∀ c ∈ cs, isNumeral c) :
    (cs ++ rest).takeWhile isNumeral = cs := by
  rw [List.takeWhile_append_of_pos h]
  cases rest with
  | nil => simp
  | cons c rest => simp [hs c rfl]

theorem Stops.dropWhile (hs : Stops rest) (h : ∀ c ∈ cs, isNumeral c) :
    (cs ++ rest).dropWhile isNumeral = rest := by
  rw [List.dropWhile_append_of_pos h]
  cases rest with
  | nil => rfl
  | cons c rest => simp [hs c rfl]

theorem ne_of_isNumeral {c d : Char} (hc : isNumeral c) (hd : isNumeral d = false) : c ≠ d := by
  rintro rfl
  rw [hc] at hd
  cases hd

theorem isSpace_of_isNumeral {c : Char} (hc : isNumeral c) : isSpace c = false := by
  simp [isSpace, ne_of_isNumeral hc (d := ' ') rfl, ne_of_isNumeral hc (d := '\t') rfl,
    ne_of_isNumeral hc (d := '\n') rfl, ne_of_isNumeral hc (d := '\r') rfl]

/-- Whatever starts like a number is read as one. -/
theorem readValue_numeral {c : Char} (hc : isNumeral c) (fuel : Nat) (cs : List Char) :
    readValue (fuel + 1) (c :: cs) = (number? ((c :: cs).takeWhile isNumeral)).map fun v =>
      (v, (c :: cs).dropWhile isNumeral) := by
  have hne (d : Char) (hd : isNumeral d = false) (ds : List Char) : c :: cs ≠ d :: ds := by
    intro h
    exact ne_of_isNumeral hc hd (List.cons.inj h).1
  rw [readValue, skipSpace_cons (isSpace_of_isNumeral hc)]
  -- No other case of the reader starts with a numeral.
  split
  next h => exact absurd h (hne _ rfl _)
  next h => exact absurd h (hne _ rfl _)
  next h => exact absurd h (hne _ rfl _)
  next h => exact absurd h (hne _ rfl _)
  next h => exact absurd h (hne _ rfl _)
  next h => exact absurd h (hne _ rfl _)
  next => rfl

theorem isNumeral_of_isDigit {c : Char} (h : c.isDigit) : isNumeral c := by
  simp [isNumeral, h]

theorem isDigit_of_mem_toDigits {n : Nat} : ∀ c ∈ Nat.toDigits 10 n, c.isDigit :=
  fun _ => Nat.isDigit_of_mem_toDigits (by decide) (by decide)

theorem digitValue_toDigits (n : Nat) : Decimal.digitValue (Nat.toDigits 10 n) = n :=
  Nat.ofDigitChars_ten_toDigits

theorem toList_toString_natCast (n : Nat) : (toString (n : Int)).toList = Nat.toDigits 10 n :=
  Nat.toList_repr

theorem toList_toString_negSucc (n : Nat) :
    (toString (Int.negSucc n)).toList = '-' :: Nat.toDigits 10 (n + 1) := by
  show ("-" ++ Nat.repr (n + 1)).toList = _
  rw [String.toList_append, Nat.toList_repr]
  rfl

theorem takeWhile_toDigits (n : Nat) :
    (Nat.toDigits 10 n).takeWhile Char.isDigit = Nat.toDigits 10 n :=
  List.takeWhile_eq_self_iff.mpr isDigit_of_mem_toDigits

theorem dropWhile_toDigits (n : Nat) : (Nat.toDigits 10 n).dropWhile Char.isDigit = [] :=
  List.dropWhile_eq_nil_iff.mpr isDigit_of_mem_toDigits

/-- The first digit of a number is its first digit without the last place, so it is no zero. -/
theorem head?_toDigits_ne_zero {n : Nat} (h : 0 < n) : (Nat.toDigits 10 n).head? ≠ some '0' := by
  induction n using Nat.strongRecOn with
  | ind n ih =>
    by_cases hn : n < 10
    · have hdigit : ∀ n < 10, 0 < n → some n.digitChar ≠ some '0' := by decide
      rw [Nat.toDigits_of_lt_base hn]
      exact hdigit n hn h
    · have hfirst : 0 < n / 10 := by omega
      rw [Nat.toDigits_of_base_le (by decide) (by omega),
        List.head?_append_of_ne_nil _ Nat.toDigits_ne_nil]
      exact ih (n / 10) (by omega) hfirst

theorem isWhole_toDigits (n : Nat) : isWhole (Nat.toDigits 10 n) := by
  rcases Nat.eq_zero_or_pos n with rfl | hn
  · rfl
  · simp [isWhole, Nat.toDigits_ne_nil, head?_toDigits_ne_zero hn]

theorem splitMinus_toDigits (n : Nat) : splitMinus (Nat.toDigits 10 n) = (false, Nat.toDigits 10 n) := by
  unfold splitMinus
  split
  next ds he =>
    have hmem : '-' ∈ Nat.toDigits 10 n := by simp [he]
    have hminus : '-'.isDigit := isDigit_of_mem_toDigits '-' hmem
    cases hminus
  next => rfl

theorem number?_of_digits {cs : List Char} {negative : Bool} {n : Nat}
    (h : splitMinus cs = (negative, Nat.toDigits 10 n)) : number? cs = whole? negative n := by
  simp [number?, h, takeWhile_toDigits, dropWhile_toDigits, isWhole_toDigits, digitValue_toDigits]

/-- The text of a whole number stands for it. -/
theorem number?_toString {n : Int} (h : -(signedLimit64 : Int) ≤ n ∧ n < limit64) :
    number? (toString n).toList = some (int n) := by
  cases n with
  | ofNat n =>
    have hn : n < limit64 := by
      have := h.2
      simp only [Int.ofNat_eq_natCast] at this
      omega
    rw [Int.ofNat_eq_natCast, toList_toString_natCast, number?_of_digits (splitMinus_toDigits n)]
    simp [whole?, hn]
  | negSucc n =>
    have hn : n + 1 ≤ signedLimit64 := by
      have := h.1
      omega
    rw [toList_toString_negSucc, number?_of_digits (n := n + 1) rfl]
    simp [whole?, hn, Int.negSucc_eq]

theorem isNumeral_of_mem_toString (n : Int) : ∀ c ∈ (toString n).toList, isNumeral c := by
  have hdigits (n : Nat) : ∀ c ∈ Nat.toDigits 10 n, isNumeral c :=
    fun c hc => isNumeral_of_isDigit (isDigit_of_mem_toDigits c hc)
  cases n with
  | ofNat n =>
    rw [Int.ofNat_eq_natCast, toList_toString_natCast]
    exact hdigits n
  | negSucc n =>
    rw [toList_toString_negSucc]
    exact List.forall_mem_cons.mpr ⟨rfl, hdigits (n + 1)⟩

theorem toString_ne_nil (n : Int) : (toString n).toList ≠ [] := by
  cases n with
  | ofNat n =>
    rw [Int.ofNat_eq_natCast, toList_toString_natCast]
    exact Nat.toDigits_ne_nil
  | negSucc n =>
    rw [toList_toString_negSucc]
    exact List.cons_ne_nil _ _

theorem readValue_toString {n : Int} (h : -(signedLimit64 : Int) ≤ n ∧ n < limit64) (fuel : Nat)
    (hs : Stops rest) : readValue (fuel + 1) ((toString n).toList ++ rest) = some (int n, rest) := by
  have hall := isNumeral_of_mem_toString n
  have htake := hs.takeWhile hall
  have hdrop := hs.dropWhile hall
  obtain ⟨c, cs, hcs⟩ := List.exists_cons_of_ne_nil (toString_ne_nil n)
  rw [hcs] at htake hdrop hall ⊢
  have hc : isNumeral c := hall c List.mem_cons_self
  rw [List.cons_append] at htake hdrop ⊢
  rw [readValue_numeral hc, htake, hdrop, ← hcs, number?_toString h]
  rfl

end Number

section Nested

/-- The value is read from its text, and no more than its text is taken. -/
def Reads (j : Json) : Prop :=
  ∀ (fuel : Nat) (rest : List Char), (text j).length ≤ fuel → Stops rest →
    readValue (fuel + 1) ((text j).toList ++ rest) = some (j, rest)

variable {j : Json} {fuel : Nat}

theorem readItems_more (hj : Reads j) (hfuel : (text j).length ≤ fuel) (cs : List Char) :
    readItems (fuel + 2) ((text j).toList ++ ',' :: cs) =
      (readItems (fuel + 1) cs).map fun x => (j :: x.1, x.2) := by
  rw [readItems, hj fuel _ hfuel (stops_cons rfl cs)]
  rfl

theorem readItems_last (hj : Reads j) (hfuel : (text j).length ≤ fuel) (rest : List Char) :
    readItems (fuel + 2) ((text j).toList ++ ']' :: rest) = some ([j], rest) := by
  rw [readItems, hj fuel _ hfuel (stops_cons rfl rest)]
  rfl

theorem readFields_more (hj : Reads j) (hfuel : (text j).length ≤ fuel) (name : String)
    (cs : List Char) :
    readFields (fuel + 2) ((quoted name).toList ++ ':' :: ((text j).toList ++ ',' :: cs)) =
      (readFields (fuel + 1) cs).map fun x => ((name, j) :: x.1, x.2) := by
  have hread := hj fuel (',' :: cs) hfuel (stops_cons rfl cs)
  rw [toList_quoted, readFields, skipSpace_cons rfl]
  simp only [readQuoted_quoted, skipSpace_cons (c := ':') rfl, hread, skipSpace_cons (c := ',') rfl]

theorem readFields_last (hj : Reads j) (hfuel : (text j).length ≤ fuel) (name : String)
    (rest : List Char) :
    readFields (fuel + 2) ((quoted name).toList ++ ':' :: ((text j).toList ++ '\x7d' :: rest)) =
      some ([(name, j)], rest) := by
  have hread := hj fuel ('\x7d' :: rest) hfuel (stops_cons rfl rest)
  rw [toList_quoted, readFields, skipSpace_cons rfl]
  simp only [readQuoted_quoted, skipSpace_cons (c := ':') rfl, hread, skipSpace_cons (c := '\x7d') rfl]

theorem toList_join_cons (s t : String) (texts : List String) (rest : List Char) :
    (Text.join "," (s :: t :: texts)).toList ++ rest =
      s.toList ++ ',' :: ((Text.join "," (t :: texts)).toList ++ rest) := by
  simp [Text.join]

theorem length_join_cons (s t : String) (texts : List String) :
    (Text.join "," (s :: t :: texts)).length = s.length + 1 + (Text.join "," (t :: texts)).length := by
  rw [Text.join, String.length_append, String.length_append]
  · rfl
  · simp

theorem readItems_text {items : List Json} (h : ∀ j ∈ items, Reads j) (hne : items ≠ []) (fuel : Nat)
    (rest : List Char) (hfuel : (Text.join "," (itemTexts items)).length + 2 ≤ fuel) :
    readItems fuel ((Text.join "," (itemTexts items)).toList ++ ']' :: rest) = some (items, rest) := by
  induction items generalizing fuel with
  | nil => exact absurd rfl hne
  | cons j items ih =>
    obtain ⟨hj, hitems⟩ := List.forall_mem_cons.mp h
    -- One call is spent on the list and one on its first item, whose text is within what is left.
    obtain ⟨fuel, rfl⟩ : ∃ k, fuel = k + 2 := ⟨fuel - 2, by omega⟩
    cases items with
    | nil =>
      rw [itemTexts, itemTexts, Text.join_singleton] at hfuel ⊢
      exact readItems_last hj (by omega) rest
    | cons k items =>
      have hrest := ih hitems (List.cons_ne_nil k items)
      rw [itemTexts] at hrest
      rw [itemTexts, itemTexts, length_join_cons] at hfuel
      rw [itemTexts, itemTexts, toList_join_cons, readItems_more hj (by omega), hrest _ (by omega)]
      rfl

theorem readFields_text {fields : List (String × Json)} (h : ∀ f ∈ fields, Reads f.2)
    (hne : fields ≠ []) (fuel : Nat) (rest : List Char)
    (hfuel : (Text.join "," (fieldTexts fields)).length + 2 ≤ fuel) :
    readFields fuel ((Text.join "," (fieldTexts fields)).toList ++ '\x7d' :: rest) =
      some (fields, rest) := by
  have hfield (name : String) (j : Json) (rest : List Char) :
      (quoted name ++ ":" ++ text j).toList ++ rest =
        (quoted name).toList ++ ':' :: ((text j).toList ++ rest) := by simp
  have hlength (name : String) (j : Json) : (text j).length ≤ (quoted name ++ ":" ++ text j).length := by
    rw [String.length_append]
    omega
  induction fields generalizing fuel with
  | nil => exact absurd rfl hne
  | cons f fields ih =>
    obtain ⟨name, j⟩ := f
    obtain ⟨hfirst, hfields⟩ := List.forall_mem_cons.mp h
    have hj : Reads j := hfirst
    obtain ⟨fuel, rfl⟩ : ∃ k, fuel = k + 2 := ⟨fuel - 2, by omega⟩
    have hlen := hlength name j
    cases fields with
    | nil =>
      rw [fieldTexts, fieldTexts, Text.join_singleton] at hfuel ⊢
      rw [hfield]
      exact readFields_last hj (by omega) name rest
    | cons g fields =>
      have hrest := ih hfields (List.cons_ne_nil g fields)
      rw [fieldTexts] at hrest
      rw [fieldTexts, fieldTexts, length_join_cons] at hfuel
      rw [fieldTexts, fieldTexts, toList_join_cons, hfield, readFields_more hj (by omega),
        hrest _ (by omega)]
      rfl

/-- A text starts with no blank and with no closing bracket, so that a list is seen not to be empty. -/
theorem Legible.starts (h : Legible j) :
    ∃ c cs, (text j).toList = c :: cs ∧ isSpace c = false ∧ c ≠ ']' := by
  cases h with
  | null => exact ⟨'n', _, rfl, rfl, by decide⟩
  | bool b =>
    cases b with
    | false => exact ⟨'f', _, rfl, rfl, by decide⟩
    | true => exact ⟨'t', _, rfl, rfl, by decide⟩
  | @int n h =>
    obtain ⟨c, cs, hcs⟩ := List.exists_cons_of_ne_nil (toString_ne_nil n)
    have hc : isNumeral c := isNumeral_of_mem_toString n c (hcs ▸ List.mem_cons_self)
    exact ⟨c, cs, hcs, isSpace_of_isNumeral hc, ne_of_isNumeral hc rfl⟩
  | str s => exact ⟨'"', _, by rw [text, quoted]; simp; rfl, rfl, by decide⟩
  | arr h => exact ⟨'[', _, by rw [text]; simp; rfl, rfl, by decide⟩
  | obj h => exact ⟨'\x7b', _, by rw [text]; simp; rfl, rfl, by decide⟩

theorem readValue_bracket {c : Char} (hspace : isSpace c = false) (hc : c ≠ ']') (cs : List Char) :
    readValue (fuel + 1) ('[' :: c :: cs) = (readItems fuel (c :: cs)).map fun x => (arr x.1, x.2) := by
  rw [readValue, skipSpace_cons rfl]
  simp only [skipSpace_cons hspace]
  split
  next h => exact absurd (List.cons.inj h).1 hc
  next => rfl

theorem exists_join_cons (s : String) (texts : List String) :
    ∃ cs, (Text.join "," (s :: texts)).toList = s.toList ++ cs := by
  cases texts with
  | nil => exact ⟨[], (List.append_nil _).symm⟩
  | cons t texts => exact ⟨_, by simpa using toList_join_cons s t texts []⟩

theorem reads_arr {items : List Json} (hitems : ∀ j ∈ items, Legible j)
    (h : ∀ j ∈ items, Reads j) : Reads (arr items) := by
  intro fuel rest hfuel _
  have hlength : (text (arr items)).length = (Text.join "," (itemTexts items)).length + 2 := by
    rw [text, String.length_append, String.length_append, Nat.add_comm "[".length]
    rfl
  have htext : (text (arr items)).toList ++ rest =
      '[' :: ((Text.join "," (itemTexts items)).toList ++ ']' :: rest) := by simp [text]
  rw [hlength] at hfuel
  rw [htext]
  cases items with
  | nil => rfl
  | cons j items =>
    -- That the list is not empty shows at its first character, which closes no list.
    have hread := readItems_text h (List.cons_ne_nil j items) fuel rest hfuel
    obtain ⟨c, cs, hcs, hspace, hc⟩ := (hitems j List.mem_cons_self).starts
    obtain ⟨more, hmore⟩ := exists_join_cons (text j) (itemTexts items)
    rw [itemTexts, hmore, hcs, List.cons_append, List.cons_append] at hread ⊢
    rw [readValue_bracket hspace hc, hread]
    rfl

theorem reads_obj {fields : List (String × Json)} (h : ∀ f ∈ fields, Reads f.2) :
    Reads (obj fields) := by
  intro fuel rest hfuel _
  have hlength : (text (obj fields)).length = (Text.join "," (fieldTexts fields)).length + 2 := by
    rw [text, String.length_append, String.length_append, Nat.add_comm "\x7b".length]
    rfl
  have htext : (text (obj fields)).toList ++ rest =
      '\x7b' :: ((Text.join "," (fieldTexts fields)).toList ++ '\x7d' :: rest) := by simp [text]
  rw [hlength] at hfuel
  rw [htext]
  cases fields with
  | nil => rfl
  | cons f fields =>
    have hread := readFields_text h (List.cons_ne_nil f fields) fuel rest hfuel
    obtain ⟨more, hmore⟩ := exists_join_cons (quoted f.1 ++ ":" ++ text f.2) (fieldTexts fields)
    rw [fieldTexts, hmore, String.toList_append, String.toList_append, List.append_assoc,
      List.append_assoc, List.append_assoc, toList_quoted] at hread ⊢
    rw [readValue, skipSpace_cons rfl]
    simp only [skipSpace_cons (c := '"') rfl, hread]
    rfl

theorem Legible.reads (h : Legible j) : Reads j := by
  induction h with
  | null => exact fun _ _ _ _ => rfl
  | bool b => cases b <;> exact fun _ _ _ _ => rfl
  | int h => exact fun fuel _ _ hs => readValue_toString h fuel hs
  | str s =>
    intro fuel rest _ _
    rw [text, toList_quoted, readValue, skipSpace_cons rfl]
    simp only [readQuoted_quoted, Option.map_some]
  | arr hitems ih => exact reads_arr hitems ih
  | obj _ ih => exact reads_obj ih

end Nested

/-- A value that its text tells is read from it. -/
theorem Legible.read?_text {j : Json} (h : Legible j) : read? (text j) = some j := by
  have hread := h.reads (text j).length [] (Nat.le_refl _) (by simp [Stops])
  rw [List.append_nil] at hread
  rw [read?, hread]
  rfl

end PartyPlan.Json
