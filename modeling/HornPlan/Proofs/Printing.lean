import HornPlan.Json.Printer
import HornPlan.Json.Reader
import HornPlan.Proofs.Outcomes

/-!
# Printed documents are read back

A document is *plain* when it has no number with a fraction, no whole number of more digits than a
reader takes, and no object that names a field twice (`isPlain`).  The text of a plain document is
read as the document (`read?_print`).

The reader is followed along what the printer has written: a character is read however it is
written, as itself or as an escape (`WritesChar.readString_eq`), the digits of a whole number as the
number (`readNumber_toDigits`), and the items of a list, or the fields of an object, one after the
other up to the closing bracket (`readItems_stacked`, `readFields_stacked`).  A number ends where
something follows that cannot belong to it, so all of this is said of a text with a rest behind it
(`Follows`).  Every item has characters of its own, which is what the calls that are left over have
to be enough for.
-/

namespace HornPlan.Json

/-! ## Hexadecimal digits -/

/-- The number that hexadecimal digits write after a number. -/
def hexNumber? (digits : List Char) (n : Nat) : Option Nat :=
  digits.foldl (fun n c => n.bind fun n => (hexValue? c).map fun d => 16 * n + d) (some n)

theorem hexNumber?_append (digits more : List Char) (n : Nat) :
    hexNumber? (digits ++ more) n = (hexNumber? digits n).bind (hexNumber? more) := by
  have hnone : ∀ l : List Char,
      l.foldl (fun n c => n.bind fun n => (hexValue? c).map fun d => 16 * n + d) none =
        (none : Option Nat) := by
    intro l
    induction l with
    | nil => rfl
    | cons c l ih => exact ih
  rw [hexNumber?, List.foldl_append]
  change List.foldl _ (hexNumber? digits n) more = _
  cases hexNumber? digits n with
  | none => exact hnone more
  | some k => rfl

theorem hexNumber?_digit {d : Nat} (hd : d < 16) (n : Nat) :
    hexNumber? [d.digitChar] n = some (16 * n + d) := by
  have hvalue : ∀ d < 16, hexValue? (Nat.digitChar d) = some d := by decide
  change (hexValue? d.digitChar).map _ = _
  rw [hvalue d hd]
  rfl

theorem hexNumber?_toDigits (n : Nat) : hexNumber? (Nat.toDigits 16 n) 0 = some n := by
  induction n using Nat.strongRecOn with
  | _ n ih =>
      rw [Nat.toDigits_eq_if (by decide)]
      split
      · rename_i hn
        rw [hexNumber?_digit hn, Nat.mul_zero, Nat.zero_add]
      · rename_i hn
        rw [hexNumber?_append, ih (n / 16) (by omega), Option.bind_some,
          hexNumber?_digit (by omega)]
        congr 1
        omega

theorem hexNumber?_replicate (k : Nat) : hexNumber? (List.replicate k '0') 0 = some 0 := by
  induction k with
  | zero => rfl
  | succ k ih => exact ih

theorem length_hex {n : Nat} (hn : n < 0x10000) : (Text.hex 4 n).length = 4 := by
  have hlength : (Nat.toDigits 16 n).length ≤ 4 :=
    (Nat.length_toDigits_le_iff (by decide) (by decide)).mpr hn
  rw [Text.hex, List.length_append, List.length_replicate]
  omega

theorem hexNumber?_hex (width n : Nat) : hexNumber? (Text.hex width n) 0 = some n := by
  rw [Text.hex, hexNumber?_append, hexNumber?_replicate]
  exact hexNumber?_toDigits n

theorem unit?_append {digits : List Char} (hlength : digits.length = 4) (rest : List Char) :
    unit? (digits ++ rest) = hexNumber? digits 0 := by
  match digits, hlength with
  | [a, b, c, d], _ => rfl

/-! ## Strings -/

section

variable {digits low rest : List Char} {offset : Nat}

theorem readUnit_single {n : Nat} (hlength : digits.length = 4) (h : hexNumber? digits 0 = some n)
    (hsingle : n < 0xd800 ∨ 0xe000 ≤ n) (hrest : rest ≠ []) :
    readUnit (digits ++ rest) = .ok (Char.ofNat n, rest) := by
  have hdrop : (digits ++ rest).drop 4 = rest := List.drop_left' hlength
  rw [readUnit, hdrop, List.isEmpty_eq_false_iff.mpr hrest, if_neg Bool.false_ne_true,
    unit?_append hlength, h]
  dsimp only
  rw [if_neg (by omega), if_neg (by omega)]

/-- Two units that form a pair are read as one character. -/
theorem readUnit_pair (hoffset : offset < 0x100000) (hlength : digits.length = 4)
    (hlow : low.length = 4) (h : hexNumber? digits 0 = some (0xd800 + offset / 0x400))
    (h' : hexNumber? low 0 = some (0xdc00 + offset % 0x400)) (hrest : rest ≠ []) :
    readUnit (digits ++ ('\\' :: 'u' :: (low ++ rest))) =
      .ok (Char.ofNat (0x10000 + offset), rest) := by
  have hdrop : (low ++ rest).drop 4 = rest := List.drop_left' hlow
  have hdrop' : (digits ++ ('\\' :: 'u' :: (low ++ rest))).drop 4 = '\\' :: 'u' :: (low ++ rest) :=
    List.drop_left' hlength
  have hsum :
      0x10000 + (0xd800 + offset / 0x400 - 0xd800) * 0x400 + (0xdc00 + offset % 0x400 - 0xdc00)
      = 0x10000 + offset := by omega
  rw [readUnit, hdrop', if_neg (by exact Bool.false_ne_true), unit?_append hlength, h]
  dsimp only
  rw [if_pos (by omega)]
  change (if ((low ++ rest).drop 4).isEmpty = true then _ else _) = _
  rw [hdrop, List.isEmpty_eq_false_iff.mpr hrest, if_neg Bool.false_ne_true, unit?_append hlow, h']
  dsimp only
  rw [if_pos (by omega), hsum]

end

section

variable {opening done rest : List Char} {fuel : Nat}

theorem readString_plain {c : Char} (hquote : c ≠ '"') (hbackslash : c ≠ '\\')
    (hcontrol : 32 ≤ c.toNat) :
    readString opening (fuel + 1) done (c :: rest) = readString opening fuel (c :: done) rest := by
  rw [readString, if_neg (Nat.not_lt.mpr hcontrol)]
  · exact hquote
  · exact hbackslash

theorem readString_letter {letter c : Char} (h : escaped? letter = some c) :
    readString opening (fuel + 1) done ('\\' :: letter :: rest) =
      readString opening fuel (c :: done) rest := by
  rw [readString, h]
  rintro rfl
  cases h

theorem readString_unit {c : Char} {digits : List Char} (h : readUnit digits = .ok (c, rest)) :
    readString opening (fuel + 1) done ('\\' :: 'u' :: digits) =
      readString opening fuel (c :: done) rest := by
  rw [readString, h]

theorem toNat_lt_or_gt_surrogates (c : Char) :
    c.toNat < 0xd800 ∨ (0xdfff < c.toNat ∧ c.toNat < 0x110000) := by
  have hvalid := c.valid
  simp only [UInt32.isValidChar, Nat.isValidChar] at hvalid
  exact hvalid

/-- The ways to write a character: as itself, as a letter behind a backslash, as one unit or as a
pair of units. -/
inductive WritesChar : Char → List Char → Prop
  | plain {c : Char} (hquote : c ≠ '"') (hbackslash : c ≠ '\\') (hcontrol : 32 ≤ c.toNat) :
      WritesChar c [c]
  | letter {c letter : Char} (h : escaped? letter = some c) : WritesChar c ['\\', letter]
  | unit {c : Char} {digits : List Char} (hlength : digits.length = 4)
      (h : hexNumber? digits 0 = some c.toNat) :
      WritesChar c ('\\' :: 'u' :: digits)
  | pair {c : Char} {high low : List Char} (hhigh : high.length = 4) (hlow : low.length = 4)
      (hc : 0x10000 ≤ c.toNat) (h : hexNumber? high 0 = some (0xd800 + (c.toNat - 0x10000) / 0x400))
      (h' : hexNumber? low 0 = some (0xdc00 + (c.toNat - 0x10000) % 0x400)) :
      WritesChar c ('\\' :: 'u' :: (high ++ '\\' :: 'u' :: low))

/-- The characters of a text, each written in one of these ways. -/
inductive WritesChars : List Char → List Char → Prop
  | nil : WritesChars [] []
  | cons {c : Char} {chars text body : List Char} (h : WritesChar c text)
      (hrest : WritesChars chars body) :
      WritesChars (c :: chars) (text ++ body)

/-- A text between quotes. -/
def WritesString (s : String) (text : List Char) : Prop :=
  ∃ body, WritesChars s.toList body ∧ text = '"' :: (body ++ ['"'])

theorem WritesChar.length_pos {c : Char} {text : List Char} (h : WritesChar c text) :
    0 < text.length := by
  cases h <;> exact Nat.succ_pos _

theorem WritesChars.length_le {chars body : List Char} (h : WritesChars chars body) :
    chars.length ≤ body.length := by
  induction h with
  | nil => exact Nat.le_refl 0
  | cons h _ ih =>
      have hpos := h.length_pos
      rw [List.length_cons, List.length_append]
      omega

/-- **However a character is written, it is read.** -/
theorem WritesChar.readString_eq {c : Char} {text : List Char} (h : WritesChar c text)
    (hrest : rest ≠ []) :
    readString opening (fuel + 1) done (text ++ rest) =
      readString opening fuel (c :: done) rest := by
  have hvalid := toNat_lt_or_gt_surrogates c
  cases h with
  | plain hquote hbackslash hcontrol => exact readString_plain hquote hbackslash hcontrol
  | letter h => exact readString_letter h
  | unit hlength h =>
      have hread := readUnit_single hlength h (by omega) hrest
      rw [Char.ofNat_toNat] at hread
      exact readString_unit hread
  | pair hhigh hlow hc h h' =>
      have hoffset : c.toNat - 0x10000 < 0x100000 := by omega
      have hpoint : 0x10000 + (c.toNat - 0x10000) = c.toNat := by omega
      have hread := readUnit_pair hoffset hhigh hlow h h' hrest
      rw [hpoint, Char.ofNat_toNat] at hread
      rw [List.cons_append, List.cons_append, List.append_assoc]
      exact readString_unit hread

theorem WritesChars.readString_eq {chars body : List Char} (h : WritesChars chars body)
    (hfuel : chars.length < fuel) :
    readString opening fuel done (body ++ '"' :: rest) =
      .ok (String.ofList (done.reverse ++ chars), rest) := by
  induction h generalizing fuel done with
  | nil =>
      cases fuel with
      | zero => cases hfuel
      | succ fuel => rw [List.append_nil]; rfl
  | cons h _ ih =>
      cases fuel with
      | zero => cases hfuel
      | succ fuel =>
          rw [List.append_assoc, h.readString_eq (by simp), ih (Nat.lt_of_succ_lt_succ hfuel),
            List.reverse_cons, List.append_assoc]
          rfl

end

theorem WritesString.readString_eq {s : String} {text : List Char} (h : WritesString s text) :
    ∃ body, text = '"' :: body ∧ ∀ opening fuel rest, text.length ≤ fuel →
      readString opening fuel [] (body ++ rest) = .ok (s, rest) := by
  obtain ⟨body, hbody, rfl⟩ := h
  refine ⟨body ++ ['"'], rfl, fun opening fuel rest hfuel => ?_⟩
  have hlength := hbody.length_le
  rw [List.length_cons, List.length_append, List.length_singleton] at hfuel
  rw [List.append_assoc, List.singleton_append, hbody.readString_eq (by omega), List.reverse_nil,
    List.nil_append, String.ofList_toList]

theorem writesChar_unitEscape {c : Char} (hc : c.toNat < 0x10000) :
    WritesChar c (unitEscape c.toNat) :=
  .unit (length_hex hc) (hexNumber?_hex ..)

/-- A character beyond the first plane is written as two units. -/
theorem writesChar_unitEscapes {c : Char} (hc : 0x10000 ≤ c.toNat) :
    WritesChar c
      (unitEscape (0xd800 + (c.toNat - 0x10000) / 0x400) ++
      unitEscape (0xdc00 + (c.toNat - 0x10000) % 0x400)) := by
  have hvalid := toNat_lt_or_gt_surrogates c
  have hhigh : 0xd800 + (c.toNat - 0x10000) / 0x400 < 0x10000 := by omega
  have hlow : 0xdc00 + (c.toNat - 0x10000) % 0x400 < 0x10000 := by omega
  rw [unitEscape, unitEscape, List.cons_append, List.cons_append]
  exact .pair (length_hex hhigh) (length_hex hlow) hc (hexNumber?_hex ..) (hexNumber?_hex ..)

/-- **What the printer writes for a character is one of the ways to write it.** -/
theorem writesChar_escapeChar (c : Char) : WritesChar c (escapeChar c) := by
  unfold escapeChar
  split_ifs with hself hnewline hreturn htab hbackspace hfeed hplain hunit
  · rcases hself with rfl | rfl
    · exact .letter rfl
    · exact .letter rfl
  · subst hnewline
    exact .letter rfl
  · subst hreturn
    exact .letter rfl
  · subst htab
    exact .letter rfl
  · subst hbackspace
    exact .letter rfl
  · subst hfeed
    exact .letter rfl
  · obtain ⟨hquote, hbackslash⟩ := not_or.mp hself
    exact .plain hquote hbackslash hplain.1
  · exact writesChar_unitEscape hunit
  · exact writesChar_unitEscapes (Nat.not_lt.mp hunit)

theorem writesChars_escaped (chars : List Char) : WritesChars chars (chars.flatMap escapeChar) := by
  induction chars with
  | nil => exact .nil
  | cons c chars ih => exact .cons (writesChar_escapeChar c) ih

theorem toList_printString (s : String) :
    (printString s).toList = '"' :: (s.toList.flatMap escapeChar ++ ['"']) :=
  String.toList_ofList

theorem writesString_printString (s : String) : WritesString s (printString s).toList :=
  ⟨_, writesChars_escaped s.toList, toList_printString s⟩

theorem readString_printString {opening rest : List Char} {fuel : Nat} (s : String)
    (hfuel : (printString s).toList.length ≤ fuel) :
    readString opening fuel [] (s.toList.flatMap escapeChar ++ ['"'] ++ rest) = .ok (s, rest) := by
  obtain ⟨body, hbody, hread⟩ := (writesString_printString s).readString_eq
  rw [toList_printString] at hbody
  obtain ⟨-, rfl⟩ := List.cons.inj hbody
  exact hread _ _ _ hfuel

/-! ## Numbers -/

/-- What comes after a printed value: nothing, a comma or a line break. -/
def Follows : List Char → Prop
  | [] => True
  | c :: _ => c = ',' ∨ c = '\n'

/-- A number that is not read as a fraction ends where something else follows. -/
theorem Follows.number_ends {rest : List Char} (h : Follows rest) :
    rest.takeWhile isDigit = [] ∧ rest.dropWhile isDigit = rest ∧
      fractionPart rest = ([], rest) ∧ exponentPart rest = (none, rest) := by
  cases rest with
  | nil => exact ⟨rfl, rfl, rfl, rfl⟩
  | cons c rest =>
      rcases h with rfl | rfl
      · exact ⟨rfl, rfl, rfl, rfl⟩
      · exact ⟨rfl, rfl, rfl, rfl⟩

/-- The digits of a number that is not zero start with another digit. -/
theorem exists_toDigits {n : Nat} (hn : 0 < n) :
    ∃ c digits, Nat.toDigits 10 n = c :: digits ∧ c ≠ '0' := by
  induction n using Nat.strongRecOn with
  | _ n ih =>
      by_cases hten : n < 10
      · have hdigit : ∀ d < 10, 0 < d → Nat.digitChar d ≠ '0' := by decide
        exact ⟨n.digitChar, [], Nat.toDigits_of_lt_base hten, hdigit n hten hn⟩
      · obtain ⟨c, digits, heq, hc⟩ := ih (n / 10) (by omega) (by omega)
        rw [Nat.toDigits_of_base_le (by decide) (Nat.not_lt.mp hten), heq]
        exact ⟨c, _, rfl, hc⟩

theorem isDigit_of_mem_toDigits {n : Nat} {c : Char} (h : c ∈ Nat.toDigits 10 n) :
    isDigit c = true := by
  have hdigit := Nat.isDigit_of_mem_toDigits (by decide) (by decide) h
  simpa [isDigit, Char.isDigit, Char.le_def] using hdigit

theorem wholePart?_toDigits (n : Nat) {rest : List Char} (hrest : Follows rest) :
    wholePart? (Nat.toDigits 10 n ++ rest) = some (Nat.toDigits 10 n, rest) := by
  rcases Nat.eq_zero_or_pos n with rfl | hn
  · rfl
  · obtain ⟨c, digits, heq, hc⟩ := exists_toDigits hn
    have hdigits : ∀ d ∈ c :: digits, isDigit d = true :=
      fun d hd => isDigit_of_mem_toDigits (heq ▸ hd)
    have hmore : ∀ d ∈ digits, isDigit d = true := fun d hd => hdigits d (List.mem_cons_of_mem _ hd)
    rw [heq, List.cons_append, wholePart?, if_pos (hdigits c List.mem_cons_self),
      List.takeWhile_append_of_pos hmore, List.dropWhile_append_of_pos hmore, hrest.number_ends.1,
      hrest.number_ends.2.1, List.append_nil]
    exact hc

theorem ofDigits_toDigits (n : Nat) : ofDigits (Nat.toDigits 10 n) = n :=
  Nat.ofDigitChars_ten_toDigits

theorem toList_toString {n : Int} (hn : 0 ≤ n) :
    (toString n).toList = Nat.toDigits 10 n.natAbs := by
  have hsize : n.toNat = n.natAbs := by omega
  change n.repr.toList = _
  rw [Int.repr_eq_if, if_pos hn, Nat.repr_eq_ofList_toDigits, String.toList_ofList, hsize]

theorem toList_toString_of_neg {n : Int} (hn : n < 0) :
    (toString n).toList = '-' :: Nat.toDigits 10 n.natAbs := by
  have hsize : (-n).toNat = n.natAbs := by omega
  change n.repr.toList = _
  rw [Int.repr_eq_if, if_neg (Int.not_le.mpr hn), Nat.repr_eq_ofList_toDigits, String.toList_append,
    String.toList_ofList, String.toList_ofList, hsize, List.singleton_append]

theorem ne_of_isDigit {c d : Char} (hc : isDigit c = true) (hd : isDigit d = false) : c ≠ d := by
  rintro rfl
  rw [hc] at hd
  cases hd

theorem exists_digit (n : Nat) :
    ∃ c digits, Nat.toDigits 10 n = c :: digits ∧ isDigit c = true := by
  obtain ⟨c, digits, heq⟩ := List.exists_cons_of_ne_nil (Nat.toDigits_ne_nil (n := n) (b := 10))
  exact ⟨c, digits, heq, isDigit_of_mem_toDigits (heq ▸ List.mem_cons_self)⟩

/-- Digits are read as the number they write. -/
theorem readNumber_toDigits {n : Nat} {rest : List Char} (hrest : Follows rest)
    (hlength : ¬ maxDigits < (Nat.toDigits 10 n).length) :
    readNumber (Nat.toDigits 10 n ++ rest) = .ok (.int n, rest) := by
  obtain ⟨_, _, hfraction, hexponent⟩ := hrest.number_ends
  have hwhole := wholePart?_toDigits n hrest
  have hsize := ofDigits_toDigits n
  -- the first of the digits is no sign
  obtain ⟨c, digits, heq, hc⟩ := exists_digit n
  have hminus : c ≠ '-' := ne_of_isDigit hc rfl
  rw [heq] at hwhole hsize hlength ⊢
  rw [List.cons_append] at hwhole ⊢
  unfold readNumber
  simp only [List.cons.injEq, hminus, false_and, imp_false, not_false_eq_true, implies_true,
    hwhole, hfraction]
  rw [hexponent]
  simp only [List.isEmpty_nil, Option.isNone_none, Bool.and_self, if_true, hlength, if_false, hsize,
    Bool.false_eq_true]

theorem readNumber_negative {n : Nat} {rest : List Char} (hrest : Follows rest)
    (hlength : ¬ maxDigits < (Nat.toDigits 10 n).length) :
    readNumber ('-' :: (Nat.toDigits 10 n ++ rest)) = .ok (.int (-n), rest) := by
  obtain ⟨_, _, hfraction, hexponent⟩ := hrest.number_ends
  unfold readNumber
  simp only [wholePart?_toDigits n hrest, hfraction]
  rw [hexponent]
  simp only [List.isEmpty_nil, Option.isNone_none, Bool.and_self, if_true, hlength, if_false,
    ofDigits_toDigits]

/-- No word starts with a digit, and none with a digit after a sign. -/
theorem word?_digit {c : Char} (hc : isDigit c = true) (rest : List Char) :
    word? (c :: rest) = none ∧ word? ('-' :: c :: rest) = none := by
  have hn : 'n' ≠ c := (ne_of_isDigit hc rfl).symm
  have ht : 't' ≠ c := (ne_of_isDigit hc rfl).symm
  have hf : 'f' ≠ c := (ne_of_isDigit hc rfl).symm
  have hN : 'N' ≠ c := (ne_of_isDigit hc rfl).symm
  have hI : 'I' ≠ c := (ne_of_isDigit hc rfl).symm
  have hminus : '-' ≠ c := (ne_of_isDigit hc rfl).symm
  constructor
  · refine Option.map_eq_none_iff.mpr (List.find?_eq_none.mpr ?_)
    simp [words, hn, ht, hf, hN, hI, hminus]
  · refine Option.map_eq_none_iff.mpr (List.find?_eq_none.mpr ?_)
    simp [words, hI]

theorem readValue_int {n : Int} (hlength : ¬ maxDigits < (Nat.toDigits 10 n.natAbs).length)
    (fuel : Nat) {rest : List Char} (hrest : Follows rest) :
    readValue (fuel + 1) ((toString n).toList ++ rest) = .ok (.int n, rest) := by
  obtain ⟨c, digits, heq, hc⟩ := exists_digit n.natAbs
  by_cases hsign : n < 0
  · have hread := readNumber_negative hrest hlength
    have hsize : -(n.natAbs : Int) = n := by omega
    rw [hsize, heq] at hread
    rw [toList_toString_of_neg hsign, List.cons_append, heq, readValue, List.cons_append,
      (word?_digit hc _).2]
    · exact hread
    all_goals simp
  · have hread := readNumber_toDigits hrest hlength
    have hsize : (n.natAbs : Int) = n := by omega
    rw [hsize, heq] at hread
    rw [toList_toString (Int.not_lt.mp hsign), heq, List.cons_append, readValue,
      (word?_digit hc _).1]
    · exact hread
    all_goals exact fun _ h => ne_of_isDigit hc rfl (List.cons.inj h).1

/-! ## White space -/

/-- White space that may stand between the parts of a text. -/
def IsGap (gap : List Char) : Prop :=
  ∀ c ∈ gap, isSpace c = true

theorem IsGap.skipSpace_append {gap rest : List Char} (h : IsGap gap) :
    skipSpace (gap ++ rest) = skipSpace rest :=
  List.dropWhile_append_of_pos h

theorem isGap_newline (level : Nat) : IsGap (newline level).toList := by
  intro c hc
  rw [newline, String.toList_ofList, List.mem_cons] at hc
  rcases hc with rfl | hc
  · rfl
  · rw [List.eq_of_mem_replicate hc]
    rfl

theorem skipSpace_newline (level : Nat) (rest : List Char) :
    skipSpace ((newline level).toList ++ rest) = skipSpace rest :=
  (isGap_newline level).skipSpace_append

/-- What is read as a document starts with no white space and with no closing bracket. -/
theorem starts_of_readValue {fuel : Nat} {text : List Char} {found : Json × List Char}
    (h : readValue fuel text = .ok found) : skipSpace text = text ∧ ∀ tail, text ≠ ']' :: tail := by
  cases fuel with
  | zero => cases h
  | succ fuel =>
      cases text with
      | nil => cases h
      | cons c text =>
          constructor
          · by_cases hc : isSpace c = true
            · -- the reader takes white space for a number and finds no digit
              simp only [isSpace, Bool.or_eq_true, decide_eq_true_eq] at hc
              rcases hc with ((rfl | rfl) | rfl) | rfl <;> cases h
            · exact List.dropWhile_cons_of_neg hc
          · rintro tail htail
            cases htail
            cases h

/-! ## Lists and objects -/

mutual
/-- A document has no number with a fraction, no number with too many digits to be read, and no
object that names a field twice. -/
def isPlain : Json → Bool
  | .int n => decide ((Nat.toDigits 10 n.natAbs).length ≤ maxDigits)
  | .real _ => false
  | .arr items => arePlain items
  | .obj fields => decide (fields.map Prod.fst).Nodup && arePlainFields fields
  | _ => true
def arePlain : List Json → Bool
  | [] => true
  | item :: rest => isPlain item && arePlain rest
def arePlainFields : List (String × Json) → Bool
  | [] => true
  | (_, value) :: rest => isPlain value && arePlainFields rest
end

/-- The text of a document is read as the document wherever it stands. -/
def IsRead (document : Json) : Prop :=
  ∀ level fuel rest, Follows rest → 2 * (printAt level document).toList.length < fuel →
    readValue fuel ((printAt level document).toList ++ rest) = .ok (document, rest)

/-- What stands between two items. -/
def separator (level : Nat) : List Char :=
  ',' :: (newline level).toList

/-- Texts on lines of their own. -/
def stacked (level : Nat) (texts : List String) : List Char :=
  (separator level).intercalate (texts.map String.toList)

theorem stacked_singleton (level : Nat) (text : String) : stacked level [text] = text.toList :=
  List.intercalate_singleton

theorem stacked_cons_cons (level : Nat) (text next : String) (texts : List String) :
    stacked level (text :: next :: texts) =
      text.toList ++ (separator level ++ stacked level (next :: texts)) := by
  rw [← List.append_assoc]
  exact List.intercalate_cons_cons

theorem toList_block (left right : String) (level : Nat) {texts : List String} (h : texts ≠ []) :
    (block left right level texts).toList
      = left.toList ++ ((newline (level + 1)).toList ++ (stacked (level + 1) texts
        ++ ((newline level).toList ++ right.toList))) := by
  have hseparator : ("," ++ newline (level + 1)).toList = separator (level + 1) := by
    rw [String.toList_append]
    rfl
  rw [block, String.toList_append, String.toList_append, String.toList_append, String.toList_append,
    String.toList_intercalate, hseparator, List.append_assoc, List.append_assoc, List.append_assoc]
  · rfl
  · exact h

theorem printItems_eq (level : Nat) (items : List Json) :
    printItems level items = items.map (printAt level) := by
  induction items with
  | nil => rfl
  | cons item items ih => rw [printItems, ih, List.map_cons]

/-- How a field of an object is written. -/
def printField (level : Nat) (field : String × Json) : String :=
  printString field.1 ++ ": " ++ printAt level field.2

theorem printFields_eq (level : Nat) (fields : List (String × Json)) :
    printFields level fields = fields.map (printField level) := by
  induction fields with
  | nil => rfl
  | cons field fields ih => rw [printFields, ih, List.map_cons, printField]

section

variable {level outer fuel : Nat} {text rest : List Char}

theorem follows_newline : Follows ((newline level).toList ++ rest) := by
  rw [newline, String.toList_ofList]
  exact Or.inr rfl

theorem follows_separator : Follows (separator level ++ rest) :=
  Or.inl rfl

theorem skipSpace_separator :
    skipSpace (separator level ++ rest) = ',' :: ((newline level).toList ++ rest) :=
  rfl

theorem length_separator_pos (level : Nat) : 0 < (separator level).length :=
  Nat.succ_pos _

theorem starts_of_readItems {done : List Json} {found : Json × List Char}
    (h : readItems fuel done text = .ok found) :
    skipSpace text = text ∧ ∀ tail, text ≠ ']' :: tail := by
  cases fuel with
  | zero => cases h
  | succ fuel =>
      rw [readItems] at h
      split at h
      · cases h
      · rename_i hitem
        exact starts_of_readValue hitem

theorem starts_of_readFields {done : List (String × Json)} {found : Json × List Char}
    (h : readFields fuel done text = .ok found) :
    skipSpace text = text ∧ ∀ tail, text ≠ '\x7d' :: tail := by
  cases fuel with
  | zero => cases h
  | succ fuel =>
      unfold readFields at h
      split at h
      · exact ⟨rfl, by simp⟩
      · cases h

theorem readItems_step {item : Json} {left : List Char}
    (hread : readValue fuel text = .ok (item, left)) (done : List Json) :
    (∀ tail, skipSpace left = ']' :: tail →
      readItems (fuel + 1) done text = .ok (.arr (done ++ [item]), tail)) ∧
    ∀ tail, skipSpace left = ',' :: tail →
      readItems (fuel + 1) done text = readItems fuel (done ++ [item]) (skipSpace tail) := by
  rw [readItems, hread]
  constructor
  · intro tail htail
    simp only [htail]
  · intro tail htail
    simp only [htail]

theorem readFields_step {name : String} {value : Json} {body colon left : List Char}
    (hname : readString ('"' :: body) fuel [] body = .ok (name, text))
    (hcolon : skipSpace text = ':' :: colon)
    (hvalue : readValue fuel (skipSpace colon) = .ok (value, left)) (done : List (String × Json)) :
    (∀ tail, skipSpace left = '\x7d' :: tail →
      readFields (fuel + 1) done ('"' :: body) = .ok (.obj (setField done name value), tail)) ∧
    ∀ tail, skipSpace left = ',' :: tail →
      readFields (fuel + 1) done ('"' :: body) = readFields fuel (setField done name value)
      (skipSpace tail) := by
  rw [readFields, hname]
  constructor
  · intro tail htail
    simp only [hcolon, hvalue, htail]
  · intro tail htail
    simp only [hcolon, hvalue, htail]

/-- The items of a list are read one after the other. -/
theorem readItems_stacked {item : Json} {items : List Json}
    (hread : ∀ other ∈ item :: items, IsRead other) (done : List Json)
    (hfuel : 2 * (stacked level ((item :: items).map (printAt level))).length + 1 < fuel) :
    readItems fuel done
        (stacked level ((item :: items).map (printAt level)) ++
        ((newline outer).toList ++ ']' :: rest))
      = .ok (.arr (done ++ item :: items), rest) := by
  -- induction on the items; what is written behind an item decides whether the list ends there
  induction items generalizing item done fuel with
  | nil =>
      rw [List.map_singleton, stacked_singleton] at hfuel ⊢
      cases fuel with
      | zero => cases hfuel
      | succ fuel =>
          have hitem :=
            hread item List.mem_cons_self level fuel ((newline outer).toList ++ ']' :: rest)
            follows_newline (Nat.lt_of_succ_lt_succ hfuel)
          exact (readItems_step hitem done).1 rest (skipSpace_newline ..)
  | cons next items ih =>
      cases fuel with
      | zero => cases hfuel
      | succ fuel =>
          obtain ⟨hitem, hothers⟩ := List.forall_mem_cons.mp hread
          have hseparator := length_separator_pos level
          rw [List.map_cons, List.map_cons, stacked_cons_cons, ← List.map_cons] at hfuel ⊢
          rw [List.length_append, List.length_append] at hfuel
          have hfirst : 2 * (printAt level item).toList.length < fuel := by omega
          have hlater :
              2 * (stacked level ((next :: items).map (printAt level))).length + 1 < fuel := by
            omega
          have hmore := ih hothers (done ++ [item]) hlater
          have hfound := hitem level fuel
            (separator level ++ (stacked level ((next :: items).map (printAt level))
              ++ ((newline outer).toList ++ ']' :: rest))) follows_separator hfirst
          rw [List.append_assoc, List.append_assoc,
            (readItems_step hfound done).2 _ skipSpace_separator, skipSpace_newline,
            (starts_of_readItems hmore).1, hmore, List.append_assoc, List.singleton_append]

theorem toList_printField (name : String) (value : Json) :
    (printField level (name, value)).toList
      = (printString name).toList ++ (':' :: ' ' :: (printAt level value).toList) := by
  rw [printField, String.toList_append, String.toList_append, List.append_assoc]
  rfl

theorem readValue_bracket {found : Json × List Char}
    (h : readItems fuel [] (skipSpace text) = .ok found) :
    readValue (fuel + 1) ('[' :: text) = .ok found := by
  have hne := (starts_of_readItems h).2
  rw [readValue]
  generalize skipSpace text = items at h hne
  split
  · exact absurd rfl (hne _)
  · exact h

theorem readValue_bracket_newline {found : Json × List Char}
    (h : readItems fuel [] text = .ok found) :
    readValue (fuel + 1) ('[' :: ((newline level).toList ++ text)) = .ok found := by
  refine readValue_bracket ?_
  rw [skipSpace_newline, (starts_of_readItems h).1]
  exact h

theorem readValue_brace {found : Json × List Char}
    (h : readFields fuel [] (skipSpace text) = .ok found) :
    readValue (fuel + 1) ('\x7b' :: text) = .ok found := by
  have hne := (starts_of_readFields h).2
  rw [readValue]
  generalize skipSpace text = fields at h hne
  split
  · exact absurd rfl (hne _)
  · exact h

theorem readValue_brace_newline {found : Json × List Char}
    (h : readFields fuel [] text = .ok found) :
    readValue (fuel + 1) ('\x7b' :: ((newline level).toList ++ text)) = .ok found := by
  refine readValue_brace ?_
  rw [skipSpace_newline, (starts_of_readFields h).1]
  exact h

theorem readFields_field {name : String} {value : Json} (hvalue : IsRead value)
    (done : List (String × Json)) (hrest : Follows rest)
    (hfuel : 2 * (printField level (name, value)).toList.length < fuel) :
    (∀ tail, skipSpace rest = '\x7d' :: tail →
      readFields (fuel + 1) done ((printField level (name, value)).toList ++ rest)
        = .ok (.obj (setField done name value), tail)) ∧
    ∀ tail, skipSpace rest = ',' :: tail →
      readFields (fuel + 1) done ((printField level (name, value)).toList ++ rest)
        = readFields fuel (setField done name value) (skipSpace tail) := by
  rw [toList_printField, List.length_append, List.length_cons, List.length_cons] at hfuel
  have hname : (printString name).toList.length ≤ fuel := by omega
  have hread := hvalue level fuel rest hrest (by omega)
  have hspace : skipSpace (' ' :: ((printAt level value).toList ++ rest)) =
      (printAt level value).toList ++ rest :=
    (starts_of_readValue hread).1
  rw [← hspace] at hread
  rw [toList_printField, toList_printString, List.append_assoc, List.cons_append, List.cons_append,
    List.cons_append]
  exact readFields_step (readString_printString name hname) rfl hread done

theorem setField_of_nodup {done fields : List (String × Json)} {field : String × Json}
    (h : ((done ++ field :: fields).map Prod.fst).Nodup) :
    setField done field.1 field.2 = done ++ [field] := by
  rw [List.map_append, List.map_cons] at h
  refine if_neg ?_
  rw [List.any_eq_true]
  rintro ⟨other, hother, heq⟩
  exact (List.nodup_append.mp h).2.2 _ (List.mem_map_of_mem hother) _ List.mem_cons_self
    (eq_of_beq heq)

/-- The fields of an object are read one after the other. -/
theorem readFields_stacked {field : String × Json} {fields : List (String × Json)}
    (hread : ∀ other ∈ field :: fields, IsRead other.2) (done : List (String × Json))
    (hnames : ((done ++ field :: fields).map Prod.fst).Nodup)
    (hfuel : 2 * (stacked level ((field :: fields).map (printField level))).length + 1 < fuel) :
    readFields fuel done
        (stacked level ((field :: fields).map (printField level)) ++
        ((newline outer).toList ++ '\x7d' :: rest))
      = .ok (.obj (done ++ field :: fields), rest) := by
  -- induction on the fields; what is written behind a field decides whether the object ends there
  induction fields generalizing field done fuel with
  | nil =>
      rw [List.map_singleton, stacked_singleton] at hfuel ⊢
      cases fuel with
      | zero => cases hfuel
      | succ fuel =>
          have hfield := hread field List.mem_cons_self
          have hfirst := Nat.lt_of_succ_lt_succ hfuel
          rw [(readFields_field hfield done follows_newline hfirst).1 _ (skipSpace_newline ..),
            setField_of_nodup hnames]
  | cons next fields ih =>
      cases fuel with
      | zero => cases hfuel
      | succ fuel =>
          obtain ⟨hfield, hothers⟩ := List.forall_mem_cons.mp hread
          have hnew := setField_of_nodup hnames
          have hseparator := length_separator_pos level
          rw [List.append_cons] at hnames
          rw [List.map_cons, List.map_cons, stacked_cons_cons, ← List.map_cons] at hfuel ⊢
          rw [List.length_append, List.length_append] at hfuel
          have hfirst : 2 * (printField level field).toList.length < fuel := by omega
          have hlater :
              2 * (stacked level ((next :: fields).map (printField level))).length + 1 < fuel := by
            omega
          have hmore := ih hothers (done ++ [field]) hnames hlater
          rw [List.append_assoc, List.append_assoc,
            (readFields_field hfield done follows_separator hfirst).2 _ skipSpace_separator,
            skipSpace_newline, hnew, (starts_of_readFields hmore).1, hmore, List.append_assoc,
            List.singleton_append]

end

/-! ## Whole documents -/

theorem isRead_null : IsRead .null := by
  intro level fuel rest _ hfuel
  cases fuel with
  | zero => cases hfuel
  | succ fuel => rw [printAt]; rfl

theorem isRead_bool (b : Bool) : IsRead (.bool b) := by
  intro level fuel rest _ hfuel
  cases fuel with
  | zero => cases hfuel
  | succ fuel => cases b <;> rw [printAt] <;> rfl

theorem isRead_int {n : Int} (hlength : (Nat.toDigits 10 n.natAbs).length ≤ maxDigits) :
    IsRead (.int n) := by
  intro level fuel rest hrest hfuel
  cases fuel with
  | zero => cases hfuel
  | succ fuel =>
      rw [printAt]
      exact readValue_int (Nat.not_lt.mpr hlength) fuel hrest

theorem isRead_str (s : String) : IsRead (.str s) := by
  intro level fuel rest _ hfuel
  cases fuel with
  | zero => cases hfuel
  | succ fuel =>
      rw [printAt] at hfuel ⊢
      have hlength : (printString s).toList.length ≤ fuel := by omega
      rw [toList_printString, List.cons_append, readValue, readString_printString s hlength]

theorem isRead_arr {items : List Json} (hread : ∀ item ∈ items, IsRead item) :
    IsRead (.arr items) := by
  intro level fuel rest _ hfuel
  cases fuel with
  | zero => cases hfuel
  | succ fuel =>
      rw [printAt, printItems_eq] at hfuel ⊢
      cases items with
      | nil =>
          rw [List.map_nil, block, String.toList_append]
          rfl
      | cons item items =>
          have hbracket : "[".toList.length = 1 := rfl
          rw [toList_block _ _ _ (by simp)] at hfuel ⊢
          rw [List.length_append, List.length_append, List.length_append, hbracket] at hfuel
          rw [List.append_assoc, List.append_assoc, List.append_assoc, List.append_assoc]
          exact readValue_bracket_newline (readItems_stacked hread [] (by omega))

theorem isRead_obj {fields : List (String × Json)} (hnames : (fields.map Prod.fst).Nodup)
    (hread : ∀ field ∈ fields, IsRead field.2) : IsRead (.obj fields) := by
  intro level fuel rest _ hfuel
  cases fuel with
  | zero => cases hfuel
  | succ fuel =>
      rw [printAt, printFields_eq] at hfuel ⊢
      cases fields with
      | nil =>
          rw [List.map_nil, block, String.toList_append]
          rfl
      | cons field fields =>
          have hbrace : "\x7b".toList.length = 1 := rfl
          rw [toList_block _ _ _ (by simp)] at hfuel ⊢
          rw [List.length_append, List.length_append, List.length_append, hbrace] at hfuel
          rw [List.append_assoc, List.append_assoc, List.append_assoc, List.append_assoc]
          exact readValue_brace_newline (readFields_stacked hread [] hnames (by omega))

-- By induction on the document.  What is read inside of it is shorter, and is read one level
-- further in.
mutual
theorem isRead_of_isPlain : {document : Json} → isPlain document → IsRead document
  | .null, _ => isRead_null
  | .bool b, _ => isRead_bool b
  | .int _, h => isRead_int (of_decide_eq_true h)
  | .real _, h => by cases h
  | .str s, _ => isRead_str s
  | .arr _, h => isRead_arr (isRead_of_arePlain h)
  | .obj _, h =>
      have hfields := Bool.and_eq_true_iff.mp h
      isRead_obj (of_decide_eq_true hfields.1) (isRead_of_arePlainFields hfields.2)
theorem isRead_of_arePlain : {items : List Json} → arePlain items → ∀ item ∈ items, IsRead item
  | [], _ => fun _ h => by cases h
  | _ :: _, h =>
      have hitems := Bool.and_eq_true_iff.mp h
      List.forall_mem_cons.mpr ⟨isRead_of_isPlain hitems.1, isRead_of_arePlain hitems.2⟩
theorem isRead_of_arePlainFields : {fields : List (String × Json)} → arePlainFields fields →
    ∀ field ∈ fields, IsRead field.2
  | [], _ => fun _ h => by cases h
  | _ :: _, h =>
      have hfields := Bool.and_eq_true_iff.mp h
      List.forall_mem_cons.mpr ⟨isRead_of_isPlain hfields.1, isRead_of_arePlainFields hfields.2⟩
end

/-- **The text of a document is read as the document.** -/
theorem read?_print {document : Json} (h : isPlain document) :
    read? document.print.toList = .ok document := by
  have hfuel : 2 * document.print.toList.length < fuelFor document.print.toList := by
    rw [fuelFor]
    omega
  have hread := isRead_of_isPlain h 0 _ [] trivial hfuel
  rw [List.append_nil] at hread
  change readValue _ document.print.toList = _ at hread
  have hspace := (starts_of_readValue hread).1
  unfold read?
  split
  · rename_i heq
    rw [heq] at hread
    cases hread
  · rw [hspace, hread]
    rfl

end HornPlan.Json
