import CircuitSynthesis.Json.Token
import Mathlib.Data.List.Basic
import Mathlib.Data.List.TakeDrop
import Mathlib.Data.List.TakeWhile
import Mathlib.Data.List.Induction

/-!
# Spellings of numbers and texts

A natural number has one spelling without sign, fraction and exponent, its
decimal digits, and reading a number without these accepts nothing else
(`nat?_eq_some_iff`). A text has many spellings; `encode` picks one, and
`decode?` takes it back to the text (`decode?_encode`).
-/

namespace CircuitSynthesis.Json

variable {cs digits rest spelling : List Char}

/-! ## Numbers -/

/-- Decimal digits, at least one of them. -/
structure IsDigits (digits : List Char) : Prop where
  ne_nil : digits ≠ []
  isDigit : ∀ c ∈ digits, c.isDigit = true

theorem isNumberChar_of_isDigit {c : Char} (h : c.isDigit = true) : isNumberChar c = true := by
  simp [isNumberChar, h]

theorem takeDigits_of_isDigits (h : IsDigits digits) : takeDigits digits = some (digits, []) := by
  have htake : digits.takeWhile (·.isDigit) = digits := List.takeWhile_eq_self_iff.mpr h.isDigit
  have hdrop : digits.dropWhile (·.isDigit) = [] := List.dropWhile_eq_nil_iff.mpr h.isDigit
  unfold takeDigits
  rw [List.span_eq_takeWhile_dropWhile, htake, hdrop]
  cases digits with
  | nil => exact absurd rfl h.ne_nil
  | cons c digits => rfl

theorem of_takeDigits_eq_some (h : takeDigits cs = some (digits, rest)) :
    cs = digits ++ rest ∧ IsDigits digits := by
  unfold takeDigits at h
  rw [List.span_eq_takeWhile_dropWhile] at h
  split at h
  · cases h
  · next hne heq =>
    obtain ⟨rfl, rfl⟩ := Prod.mk.inj heq
    obtain ⟨rfl, rfl⟩ := Prod.mk.inj (Option.some.inj h)
    exact ⟨List.takeWhile_append_dropWhile.symm, fun hnil => hne hnil,
      fun c hc => List.mem_takeWhile_imp hc⟩

theorem of_takeMinus (cs : List Char) :
    cs = (if (takeMinus cs).1 then ['-'] else []) ++ (takeMinus cs).2 := by
  unfold takeMinus
  split <;> rfl

theorem of_takeWhole_eq_some (h : takeWhole cs = some (digits, rest)) :
    cs = digits ++ rest ∧ IsDigits digits ∧ (digits.head? = some '0' → digits = ['0']) := by
  unfold takeWhole at h
  obtain ⟨⟨digits', rest'⟩, htake, hrest⟩ := Option.bind_eq_some_iff.mp h
  obtain ⟨hcs, hdigits⟩ := of_takeDigits_eq_some htake
  dsimp only at hrest
  split at hrest
  · cases hrest
  · next hzero =>
    obtain ⟨rfl, rfl⟩ := Prod.mk.inj (Option.some.inj hrest)
    refine ⟨hcs, hdigits, fun hhead => ?_⟩
    obtain ⟨t, rfl⟩ := List.head?_eq_some_iff.mp hhead
    cases t with
    | nil => rfl
    | cons c t => exact (hzero c t rfl).elim

/-- The characters of a part of a number that may be missing, with the digits
that were read from them. -/
def IsPart (part digits : List Char) : Prop :=
  (∀ c ∈ part, isNumberChar c = true) ∧ (digits = [] → part = [])

theorem isPart_nil : IsPart [] [] := ⟨nofun, fun _ => rfl⟩

theorem IsDigits.isPart {mark : List Char} (h : IsDigits digits)
    (hmark : ∀ c ∈ mark, isNumberChar c = true) : IsPart (mark ++ digits) digits := by
  refine ⟨fun c hc => ?_, fun hnil => absurd hnil h.ne_nil⟩
  rcases List.mem_append.mp hc with hc | hc
  · exact hmark c hc
  · exact isNumberChar_of_isDigit (h.isDigit c hc)

theorem of_takeFraction_eq_some (h : takeFraction cs = some (digits, rest)) :
    ∃ part, cs = part ++ rest ∧ IsPart part digits := by
  unfold takeFraction at h
  split at h
  · obtain ⟨rfl, hdigits⟩ := of_takeDigits_eq_some h
    exact ⟨['.'] ++ digits, rfl, hdigits.isPart (by simp [isNumberChar])⟩
  · cases h
    exact ⟨[], rfl, isPart_nil⟩

theorem of_takeSign (cs : List Char) :
    ∃ sign, cs = sign ++ (takeSign cs).2 ∧ ∀ c ∈ sign, isNumberChar c = true := by
  unfold takeSign
  split
  · exact ⟨['+'], rfl, by simp [isNumberChar]⟩
  · refine ⟨_, of_takeMinus _, ?_⟩
    split <;> simp [isNumberChar]

theorem isPart_exponent {e : Char} {after : List Char} (he : isNumberChar e = true)
    (htake : takeDigits (takeSign after).2 = some (digits, rest)) :
    ∃ part, e :: after = part ++ rest ∧ IsPart part digits := by
  obtain ⟨hafter, hdigits⟩ := of_takeDigits_eq_some htake
  obtain ⟨sign, hsign, hchars⟩ := of_takeSign after
  refine ⟨e :: sign ++ digits, ?_, hdigits.isPart (List.forall_mem_cons.mpr ⟨he, hchars⟩)⟩
  rw [hafter] at hsign
  simp [hsign]

theorem of_takeExponent_eq_some {negative : Bool}
    (h : takeExponent cs = some ((negative, digits), rest)) :
    ∃ part, cs = part ++ rest ∧ IsPart part digits := by
  unfold takeExponent at h
  split at h
  · obtain ⟨⟨digits', rest'⟩, htake, ⟨⟩⟩ := Option.bind_eq_some_iff.mp h
    exact isPart_exponent rfl htake
  · obtain ⟨⟨digits', rest'⟩, htake, ⟨⟩⟩ := Option.bind_eq_some_iff.mp h
    exact isPart_exponent rfl htake
  · cases h
    exact ⟨[], rfl, isPart_nil⟩

/-- A number is an optional minus sign and digits without a zero in front, then
characters of a fraction and of an exponent, if it has these. -/
theorem of_numberParts?_eq_some {parts : NumberParts} (h : numberParts? spelling = some parts) :
    ∃ tail, spelling = (if parts.negative then ['-'] else []) ++ parts.whole ++ tail ∧
      IsDigits parts.whole ∧ (parts.whole.head? = some '0' → parts.whole = ['0']) ∧
      (∀ c ∈ tail, isNumberChar c = true) ∧ (parts.isDecimal = false → tail = []) := by
  have hminus := of_takeMinus spelling
  unfold numberParts? at h
  generalize takeMinus spelling = minus at h hminus
  obtain ⟨negative, afterMinus⟩ := minus
  obtain ⟨⟨whole, afterWhole⟩, hwhole, h⟩ := Option.bind_eq_some_iff.mp h
  obtain ⟨⟨fraction, afterFraction⟩, hfraction, h⟩ := Option.bind_eq_some_iff.mp h
  obtain ⟨⟨⟨exponentNegative, exponent⟩, last⟩, hexponent, h⟩ := Option.bind_eq_some_iff.mp h
  dsimp only at h hminus
  split at h
  · next hlast =>
    cases h
    obtain ⟨rfl, hdigits, hzero⟩ := of_takeWhole_eq_some hwhole
    obtain rfl := List.isEmpty_iff.mp hlast
    obtain ⟨first, rfl, hfirst, hfirst'⟩ := of_takeFraction_eq_some hfraction
    obtain ⟨second, rfl, hsecond, hsecond'⟩ := of_takeExponent_eq_some hexponent
    refine ⟨first ++ second, ?_, hdigits, hzero, ?_, ?_⟩
    · simpa using hminus
    · simpa [or_imp, forall_and] using ⟨hfirst, hsecond⟩
    · intro hwhole
      simp only [Bool.or_eq_false_iff, Bool.not_eq_false', List.isEmpty_iff] at hwhole
      rw [hfirst' hwhole.1, hsecond' hwhole.2]
      rfl
  · cases h

theorem numberParts?_of_isDigits (h : IsDigits digits)
    (hzero : digits.head? = some '0' → digits = ['0']) :
    numberParts? digits = some ⟨false, digits, [], false, [], false⟩ := by
  have hminus : takeMinus digits = (false, digits) := by
    unfold takeMinus
    split
    · exact absurd (h.isDigit _ List.mem_cons_self) (by decide)
    · rfl
  have hwhole : takeWhole digits = some (digits, []) := by
    unfold takeWhole
    rw [takeDigits_of_isDigits h, Option.bind_eq_bind, Option.bind_some]
    dsimp only
    split
    · cases hzero rfl
    · rfl
  unfold numberParts?
  rw [hminus]
  show (takeWhole digits >>= _) = _
  rw [hwhole]
  rfl

/-- What is read as a natural number has no sign, fraction or exponent. -/
theorem digits_of_nat?_eq_some {n : Nat} (h : nat? spelling = some n) :
    IsDigits spelling ∧ (spelling.head? = some '0' → spelling = ['0']) ∧
      digitsValue spelling = n := by
  obtain ⟨parts, hparts, hvalue⟩ := Option.bind_eq_some_iff.mp h
  split at hvalue
  · cases hvalue
  · next hplain =>
    cases hvalue
    rw [Bool.not_eq_true, Bool.or_eq_false_iff] at hplain
    obtain ⟨tail, rfl, hdigits, hzero, -, htail⟩ := of_numberParts?_eq_some hparts
    rw [htail hplain.2, hplain.1]
    simpa using ⟨hdigits, hzero⟩

theorem nat?_of_isDigits (h : IsDigits digits)
    (hzero : digits.head? = some '0' → digits = ['0']) :
    nat? digits = some (digitsValue digits) := by
  unfold nat?
  rw [numberParts?_of_isDigits h hzero]
  rfl

/-! ## Natural numbers -/

theorem digitsValue_eq_ofDigitChars (digits : List Char) :
    digitsValue digits = Nat.ofDigitChars 10 digits 0 := by
  simp only [digitsValue, digitValue, Nat.ofDigitChars_eq_foldl, Nat.mul_comm]

theorem isDigits_natSpelling (n : Nat) : IsDigits (natSpelling n) :=
  ⟨Nat.toDigits_ne_nil, fun _ hc => Nat.isDigit_of_mem_toDigits (by decide) (by decide) hc⟩

@[simp] theorem digitsValue_natSpelling (n : Nat) : digitsValue (natSpelling n) = n := by
  rw [digitsValue_eq_ofDigitChars]
  exact Nat.ofDigitChars_ten_toDigits

theorem digitsValue_append_singleton (digits : List Char) (c : Char) :
    digitsValue (digits ++ [c]) = digitsValue digits * 10 + digitValue c := by
  simp [digitsValue]

theorem digitValue_lt {c : Char} (h : c.isDigit = true) : digitValue c < 10 := by
  have hrange := Char.isDigit_iff_toNat.mp h
  simp only [digitValue, Char.reduceToNat] at hrange ⊢
  omega

theorem toDigits_digitValue {c : Char} (h : c.isDigit = true) :
    Nat.toDigits 10 (digitValue c) = [c] := by
  have hlt := digitValue_lt h
  have hrange := Char.isDigit_iff_toNat.mp h
  have hchar : Nat.digitChar (digitValue c) = c := by
    rw [← Char.toNat_inj, Nat.toNat_digitChar_of_lt_ten hlt]
    simp only [digitValue, Char.reduceToNat] at hrange ⊢
    omega
  rw [Nat.toDigits_of_lt_base hlt, hchar]

/-- Digits without a zero in front are the spelling of their value. -/
theorem natSpelling_digitsValue (h : IsDigits digits)
    (hzero : digits.head? = some '0' → digits = ['0']) :
    natSpelling (digitsValue digits) = digits := by
  induction digits using List.reverseRecOn with
  | nil => exact absurd rfl h.ne_nil
  | append_singleton front c ih =>
    have hc : c.isDigit = true := h.isDigit c (by simp)
    rw [digitsValue_append_singleton]
    cases front with
    | nil =>
      show Nat.toDigits 10 (0 * 10 + digitValue c) = [c]
      rw [Nat.zero_mul, Nat.zero_add, toDigits_digitValue hc]
    | cons d front =>
      have hfront : IsDigits (d :: front) :=
        ⟨List.cons_ne_nil _ _, fun e he => h.isDigit e (List.mem_append_left _ he)⟩
      have hd : d ≠ '0' := by
        rintro rfl
        exact absurd (hzero rfl) (by simp)
      have hspelling := ih hfront fun hhead => absurd (Option.some.inj hhead) hd
      have hpos : 0 < digitsValue (d :: front) := by
        apply Nat.pos_of_ne_zero
        intro hvalue
        rw [hvalue] at hspelling
        exact hd (List.cons_eq_cons.mp hspelling).1.symm
      have happend := Nat.toDigits_append_toDigits (b := 10) (by decide) hpos (digitValue_lt hc)
      rw [Nat.mul_comm, natSpelling, Decimal.natDigits, ← happend, toDigits_digitValue hc]
      exact congrArg (· ++ [c]) hspelling

/-- Only zero begins with a zero. -/
theorem natSpelling_of_head? (n : Nat) (h : (natSpelling n).head? = some '0') :
    natSpelling n = ['0'] := by
  induction n using Nat.strongRecOn with
  | ind n ih =>
    unfold natSpelling Decimal.natDigits at h ⊢
    by_cases hn : n < 10
    · rw [Nat.toDigits_of_lt_base hn] at h ⊢
      rw [Option.some.inj h]
    · rw [Nat.toDigits_of_base_le (by decide) (by omega)] at h
      rw [List.head?_append, Option.or_of_isSome
        (List.isSome_head?.mpr Nat.toDigits_ne_nil)] at h
      have hfront := congrArg digitsValue (ih (n / 10) (by omega) h)
      rw [digitsValue_natSpelling] at hfront
      change n / 10 = 0 at hfront
      omega

/-- A number is read as a natural number exactly when it is spelled by its
decimal digits. -/
theorem nat?_eq_some_iff {n : Nat} : nat? spelling = some n ↔ spelling = natSpelling n := by
  constructor
  · intro h
    obtain ⟨hdigits, hzero, rfl⟩ := digits_of_nat?_eq_some h
    exact (natSpelling_digitsValue hdigits hzero).symm
  · rintro rfl
    rw [nat?_of_isDigits (isDigits_natSpelling n) (natSpelling_of_head? n), digitsValue_natSpelling]

/-! ## Texts -/

theorem hexValue?_digitChar {d : Nat} (h : d < 16) : hexValue? (Nat.digitChar d) = some d := by
  revert d
  decide

theorem decodeChars_escape {c e : Char} (he : simpleEscape? e = some c) (rest : List Char) :
    decodeChars ('\\' :: e :: rest) = (decodeChars rest).map (c :: ·) := by
  rw [decodeChars, he]
  · cases decodeChars rest <;> rfl
  · rintro _ _ _ _ _ rfl
    cases he

theorem decodeChars_plain {c : Char} (hc : c ≠ '\\') (rest : List Char) :
    decodeChars (c :: rest) = (decodeChars rest).map (c :: ·) := by
  rw [decodeChars]
  · cases decodeChars rest <;> rfl
  · exact fun _ _ _ _ _ h => absurd h hc
  · exact fun _ _ h => absurd h hc

/-- A control character is spelled by two zeros and its two digits. -/
theorem decodeChars_control {c : Char} (hc : c < ' ') (rest : List Char) :
    decodeChars ('\\' :: 'u' :: '0' :: '0' :: Nat.digitChar (c.toNat / 16) ::
      Nat.digitChar (c.toNat % 16) :: rest) = (decodeChars rest).map (c :: ·) := by
  have hlt : c.toNat < 32 := hc
  have hunit : hexUnit? '0' '0' (Nat.digitChar (c.toNat / 16)) (Nat.digitChar (c.toNat % 16)) =
      some c.toNat := by
    unfold hexUnit?
    rw [hexValue?_digitChar (by omega), hexValue?_digitChar (by omega)]
    show some (((0 * 16 + 0) * 16 + c.toNat / 16) * 16 + c.toNat % 16) = some c.toNat
    congr 1
    omega
  have htrailing : isTrailingSurrogate c.toNat = false := by
    simp [isTrailingSurrogate]
    omega
  have hleading : isLeadingSurrogate c.toNat = false := by
    simp [isLeadingSurrogate]
    omega
  rw [decodeChars, hunit]
  simp only [Option.bind_eq_bind, Option.bind_some, htrailing, hleading, Bool.false_eq_true,
    if_false, Char.ofNat_toNat]
  cases decodeChars rest <;> rfl

theorem decodeChars_encodeChar (c : Char) (rest : List Char) :
    decodeChars (encodeChar c ++ rest) = (decodeChars rest).map (c :: ·) := by
  unfold encodeChar
  split_ifs with hquote hslash hb ht hn hf hr hcontrol
  -- Seven characters have a short escape.
  iterate 7
    · subst c
      exact decodeChars_escape (by rfl) rest
  · exact decodeChars_control hcontrol rest
  · exact decodeChars_plain hslash rest

theorem decodeChars_encode (cs : List Char) : decodeChars (cs.flatMap encodeChar) = some cs := by
  induction cs with
  | nil => rfl
  | cons c cs ih =>
    rw [List.flatMap_cons, decodeChars_encodeChar, ih]
    rfl

/-- A text can be read back from its spelling. -/
@[simp] theorem decode?_encode (s : String) : decode? (encode s) = some s := by
  unfold decode? encode
  rw [decodeChars_encode, Option.map_some, String.ofList_toList]

theorem encodeChar_of_isDigit {c : Char} (h : c.isDigit = true) : encodeChar c = [c] := by
  have hrange := Char.isDigit_iff_toNat.mp h
  unfold encodeChar
  split_ifs with hquote hslash hb ht hn hf hr hcontrol
  iterate 7
    · subst c
      cases h
  · have hlt : c.toNat < 32 := hcontrol
    simp only [Char.reduceToNat] at hrange
    omega
  · rfl

/-- Digits stand for themselves in a text. -/
theorem encode_natSpelling (n : Nat) : encode (String.ofList (natSpelling n)) = natSpelling n := by
  unfold encode
  rw [String.toList_ofList, List.flatMap_congr fun c hc =>
    encodeChar_of_isDigit ((isDigits_natSpelling n).isDigit c hc)]
  exact List.flatMap_singleton' _

end CircuitSynthesis.Json
