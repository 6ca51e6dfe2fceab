import CircuitSynthesis.Json.Reader
import CircuitSynthesis.Proofs.Json.Spelling

/-!
# Reading rendered documents

The reader takes every document that is rendered back to that document
(`parse?_render`), as long as its numbers are numbers and its texts and keys
are spelled by `encode`.

Reading is followed character by character: `readFrom` couples the run being
read with what the reader has read so far. A document reads when, wherever a
value may come, its characters lead to that value being given to the innermost
container (`Reads`). Each kind of document reads if its parts do.
-/

namespace CircuitSynthesis.Json

/-- Documents of proper numbers, with texts and keys spelled by `encode`. -/
inductive WellSpelled : Json → Prop
  | null : WellSpelled .null
  | bool (b : Bool) : WellSpelled (.bool b)
  | number {spelling : List Char} {parts : NumberParts}
      (hparts : numberParts? spelling = some parts) : WellSpelled (.number spelling)
  | text (s : String) : WellSpelled (.text (encode s))
  | array {items : List Json} (hitems : ∀ item ∈ items, WellSpelled item) :
      WellSpelled (.array items)
  | object {members : List (List Char × Json)} (hkeys : ∀ m ∈ members, ∃ name, m.1 = encode name)
      (hvalues : ∀ m ∈ members, WellSpelled m.2) : WellSpelled (.object members)

/-! ## Characters -/

@[simp] theorem Run.finish_blank : Run.blank.finish = some [] := rfl

@[simp] theorem Run.extend_blank (c : Char) : Run.blank.extend c = none := rfl

/-- What has been read after the characters that follow a run. -/
def readFrom (state : Reading) (run : Run) (chars : List Char) : Option Reading := do
  (← tokensFrom run chars).foldlM Reading.step state

section

variable {state state' : Reading} {run : Run} {c : Char} {t : Token} {rest : List Char}

theorem readFrom_extend (run' : Run) (h : run.extend c = some run') :
    readFrom state run (c :: rest) = readFrom state run' rest := by
  unfold readFrom
  rw [tokensFrom, h]

theorem readFrom_start (h : Run.start c = some ([], run)) :
    readFrom state .blank (c :: rest) = readFrom state run rest := by
  unfold readFrom
  rw [tokensFrom]
  simp [h]

theorem readFrom_punctuation (h : Run.start c = some ([t], .blank))
    (hstep : state.step t = some state') :
    readFrom state .blank (c :: rest) = readFrom state' .blank rest := by
  unfold readFrom
  rw [tokensFrom]
  simp [h, Option.bind_assoc, hstep]

theorem start_of_isDigit (h : c.isDigit = true) : Run.start c = some ([], .number [c]) := by
  have hblank : isBlank c = false := by
    simp only [isBlank, Bool.or_eq_false_iff, beq_eq_false_iff_ne]
    refine ⟨⟨⟨?_, ?_⟩, ?_⟩, ?_⟩ <;> rintro rfl <;> cases h
  have hquote : c ≠ '"' := by
    rintro rfl
    cases h
  simp [Run.start, hblank, hquote, h]

/-- A run ends where the next character does not continue it. -/
theorem readFrom_finish (h : run.finish = some [t]) (hrest : ∀ c ∈ rest.head?, run.extend c = none)
    (hstep : state.step t = some state') :
    readFrom state run rest = readFrom state' .blank rest := by
  unfold readFrom
  cases rest with
  | nil => simp [tokensFrom, h, hstep]
  | cons c rest =>
    rw [tokensFrom, tokensFrom, hrest c rfl]
    simp [h, Option.bind_assoc, hstep]

/-- A run takes all characters that each continue it. -/
theorem readFrom_append (wrap : List Char → Run) {cs : List Char}
    (h : ∀ c ∈ cs, ∀ read, (wrap read).extend c = some (wrap (c :: read))) (read : List Char) :
    readFrom state (wrap read) (cs ++ rest) = readFrom state (wrap (cs.reverse ++ read)) rest := by
  induction cs generalizing read with
  | nil => rfl
  | cons c cs ih =>
    rw [List.cons_append, readFrom_extend _ (h c List.mem_cons_self read),
      ih (fun c hc => h c (List.mem_cons_of_mem _ hc))]
    simp

/-- A run from the character that starts it to the character after it. -/
theorem readFrom_run (wrap : List Char → Run) {more : List Char}
    (hstart : Run.start c = some ([], wrap [c]))
    (hmore : ∀ d ∈ more, ∀ read, (wrap read).extend d = some (wrap (d :: read)))
    (hfinish : (wrap (c :: more).reverse).finish = some [t])
    (hrest : ∀ d ∈ rest.head?, (wrap (c :: more).reverse).extend d = none)
    (hstep : state.step t = some state') :
    readFrom state .blank (c :: more ++ rest) = readFrom state' .blank rest := by
  rw [List.cons_append, readFrom_start hstart, readFrom_append wrap hmore]
  rw [List.reverse_cons] at hfinish hrest
  exact readFrom_finish hfinish hrest hstep

/-! ## Tokens -/

/-- What follows a value: nothing, or a character that ends it. -/
def Delimited (rest : List Char) : Prop := ∀ c ∈ rest.head?, c = ',' ∨ c = ']' ∨ c = '\x7d'

theorem delimited_nil : Delimited [] := by simp [Delimited]

theorem delimited_more {α : Type} (write : α → List Char) (more : List α) {last : Char}
    (hlast : last = ']' ∨ last = '\x7d') :
    Delimited ((more.flatMap fun next => ',' :: write next) ++ last :: rest) := by
  cases more <;> simp [Delimited, hlast]

theorem readFrom_word {word : List Char} (hkeyword : keyword? word = some t)
    (hrest : Delimited rest) (hstep : state.step t = some state') :
    readFrom state .blank (word ++ rest) = readFrom state' .blank rest := by
  have hword : ∃ c more, word = c :: more ∧ Run.start c = some ([], .word [c]) ∧
      ∀ d ∈ more, d.isAlpha = true := by
    unfold keyword? at hkeyword
    split at hkeyword
    · exact ⟨_, _, rfl, rfl, by simp⟩
    · exact ⟨_, _, rfl, rfl, by simp⟩
    · exact ⟨_, _, rfl, rfl, by simp⟩
    · cases hkeyword
  obtain ⟨c, more, rfl, hstart, hmore⟩ := hword
  refine readFrom_run Run.word hstart ?_ ?_ ?_ hstep
  · intro d hd read
    simp [Run.extend, hmore d hd]
  · simp [Run.finish, hkeyword]
  · intro d hd
    rcases hrest d hd with rfl | rfl | rfl <;> rfl

theorem readFrom_number {spelling : List Char} {parts : NumberParts}
    (hparts : numberParts? spelling = some parts) (hrest : Delimited rest)
    (hstep : state.step (.number spelling) = some state') :
    readFrom state .blank (spelling ++ rest) = readFrom state' .blank rest := by
  have hspelling : ∃ c more, spelling = c :: more ∧ Run.start c = some ([], .number [c]) ∧
      ∀ d ∈ more, isNumberChar d = true := by
    obtain ⟨tail, rfl, hwhole, -, htail, -⟩ := of_numberParts?_eq_some hparts
    have hchars : ∀ d ∈ parts.whole ++ tail, isNumberChar d = true := by
      intro d hd
      rcases List.mem_append.mp hd with hd | hd
      · exact isNumberChar_of_isDigit (hwhole.isDigit d hd)
      · exact htail d hd
    by_cases hnegative : parts.negative = true
    · exact ⟨'-', parts.whole ++ tail, by simp [hnegative], rfl, hchars⟩
    · obtain ⟨c, more, hcons⟩ := List.exists_cons_of_ne_nil hwhole.ne_nil
      refine ⟨c, more ++ tail, by simp [hnegative, hcons], ?_, ?_⟩
      · exact start_of_isDigit (hwhole.isDigit c (by simp [hcons]))
      · intro d hd
        exact hchars d (by simp_all)
  obtain ⟨c, more, rfl, hstart, hmore⟩ := hspelling
  refine readFrom_run Run.number hstart ?_ ?_ ?_ hstep
  · intro d hd read
    simp [Run.extend, hmore d hd]
  · simp [Run.finish, hparts]
  · intro d hd
    rcases hrest d hd with rfl | rfl | rfl <;> rfl

theorem readFrom_escape {e : Char} (he : simpleEscape? e = some c) (read : List Char) :
    readFrom state (.text read .nothing) ('\\' :: e :: rest) =
      readFrom state (.text (e :: '\\' :: read) .nothing) rest := by
  rw [readFrom_extend (.text ('\\' :: read) .letter) rfl]
  apply readFrom_extend
  show Run.extendText _ .letter e = _
  rw [Run.extendText, he]
  · rfl
  · rintro rfl
    cases he

theorem readFrom_hex {d count : Nat} (pending : Pending) (hd : d < 16)
    (hpending : (if count ≤ 1 then .nothing else .hex (count - 1)) = pending) (read : List Char) :
    readFrom state (.text read (.hex count)) (Nat.digitChar d :: rest) =
      readFrom state (.text (Nat.digitChar d :: read) pending) rest := by
  apply readFrom_extend
  simp [Run.extend, Run.extendText, hexValue?_digitChar hd, hpending]

/-- The spelling of a character is read as a whole. -/
theorem readFrom_encodeChar (c : Char) (read : List Char) :
    readFrom state (.text read .nothing) (encodeChar c ++ rest) =
      readFrom state (.text ((encodeChar c).reverse ++ read) .nothing) rest := by
  unfold encodeChar
  split_ifs with hquote hslash hb ht hn hf hr hcontrol
  -- As in `decodeChars_encodeChar`, the first seven are the short escapes.
  iterate 7
    · subst c
      exact readFrom_escape (by rfl) read
  · have hlt : c.toNat < 32 := hcontrol
    simp only [List.cons_append, List.nil_append]
    rw [readFrom_extend (.text ('\\' :: read) .letter) rfl,
      readFrom_extend (.text ('u' :: '\\' :: read) (.hex 4)) rfl,
      readFrom_extend (.text ('0' :: 'u' :: '\\' :: read) (.hex 3)) rfl,
      readFrom_extend (.text ('0' :: '0' :: 'u' :: '\\' :: read) (.hex 2)) rfl,
      readFrom_hex (.hex 1) (by omega) rfl,
      readFrom_hex .nothing (by omega) rfl]
    rfl
  · apply readFrom_extend
    show Run.extendText _ .nothing c = _
    rw [Run.extendText, if_neg hcontrol]
    · rfl
    · exact hquote
    · exact hslash

theorem readFrom_encode (cs read : List Char) :
    readFrom state (.text read .nothing) (cs.flatMap encodeChar ++ rest) =
      readFrom state (.text ((cs.flatMap encodeChar).reverse ++ read) .nothing) rest := by
  induction cs generalizing read with
  | nil => rfl
  | cons c cs ih =>
    rw [List.flatMap_cons, List.append_assoc, readFrom_encodeChar, ih]
    simp

theorem readFrom_text (s : String) (hstep : state.step (.text (encode s)) = some state') :
    readFrom state .blank (quoted (encode s) ++ rest) = readFrom state' .blank rest := by
  have hclose : (Run.text ((encode s).reverse ++ []) .nothing).extend '"' =
      some (.closed (encode s)) := by
    simp [Run.extend, Run.extendText]
  calc readFrom state .blank (quoted (encode s) ++ rest)
      = readFrom state .blank ('"' :: (encode s ++ '"' :: rest)) := by simp [quoted]
    _ = readFrom state (.text [] .nothing) (encode s ++ '"' :: rest) := readFrom_start rfl
    _ = readFrom state (.text ((encode s).reverse ++ []) .nothing) ('"' :: rest) :=
        readFrom_encode s.toList []
    _ = readFrom state (.closed (encode s)) rest := readFrom_extend _ hclose
    _ = readFrom state' .blank rest := readFrom_finish rfl (fun _ _ => rfl) hstep

end

/-! ## Documents -/

/-- States in which a value comes next, for the innermost of the open containers. -/
def Expects (state : Reading) (frames : List Frame) : Prop :=
  ∀ t ≠ Token.closeBracket, state.step t = Reading.begin frames t

theorem expects_value (frames : List Frame) : Expects (.value frames) frames := fun _ _ => rfl

theorem expects_firstItem (frames : List Frame) :
    Expects (.firstItem frames) (.array [] :: frames) := by
  intro t ht
  cases t <;> first | rfl | exact absurd rfl ht

/-- Wherever a value may come, the document is read and given to the innermost
container. -/
def Reads (j : Json) : Prop :=
  ∀ {state : Reading} {frames : List Frame} {rest : List Char}, Expects state frames →
    Delimited rest →
    readFrom state .blank (j.chars ++ rest) = readFrom (Reading.give j frames) .blank rest

theorem reads_null : Reads .null := by
  intro state frames rest hexpects hrest
  exact readFrom_word (t := .null) rfl hrest (hexpects _ nofun)

theorem reads_bool (b : Bool) : Reads (.bool b) := by
  intro state frames rest hexpects hrest
  cases b with
  | false => exact readFrom_word (t := .bool false) rfl hrest (hexpects _ nofun)
  | true => exact readFrom_word (t := .bool true) rfl hrest (hexpects _ nofun)

theorem reads_number {spelling : List Char} {parts : NumberParts}
    (hparts : numberParts? spelling = some parts) : Reads (.number spelling) := by
  intro state frames rest hexpects hrest
  exact readFrom_number hparts hrest (hexpects _ nofun)

theorem reads_text (s : String) : Reads (.text (encode s)) := by
  intro state frames rest hexpects hrest
  exact readFrom_text s (hexpects _ nofun)

theorem itemChars_cons (item : Json) (more : List Json) :
    itemChars (item :: more) = item.chars ++ more.flatMap fun next => ',' :: next.chars := by
  induction more generalizing item with
  | nil => simp [itemChars]
  | cons next more ih =>
    rw [itemChars, ih, List.flatMap_cons, List.cons_append]
    exact List.cons_ne_nil _ _

theorem readFrom_moreItems {more : List Json} (hmore : ∀ item ∈ more, Reads item)
    (items : List Json) (frames : List Frame) (rest : List Char) :
    readFrom (.afterItem items frames) .blank
        ((more.flatMap fun next => ',' :: next.chars) ++ ']' :: rest) =
      readFrom (Reading.give (.array (items.reverse ++ more)) frames) .blank rest := by
  induction more generalizing items with
  | nil => exact readFrom_punctuation rfl (by simp [Reading.step])
  | cons item more ih =>
    obtain ⟨hitem, hmore⟩ := List.forall_mem_cons.mp hmore
    rw [List.flatMap_cons, List.append_assoc, List.cons_append,
      readFrom_punctuation (t := .comma) rfl rfl, hitem (expects_value _) ?_]
    · simpa [Reading.give] using ih hmore (item :: items)
    · exact delimited_more _ more (.inl rfl)

theorem reads_array {items : List Json} (hitems : ∀ item ∈ items, Reads item) :
    Reads (.array items) := by
  intro state frames rest hexpects hrest
  rw [chars, List.cons_append, List.cons_append, List.append_assoc,
    readFrom_punctuation (t := .openBracket) rfl (hexpects _ nofun)]
  cases items with
  | nil => exact readFrom_punctuation rfl rfl
  | cons item more =>
    -- The first item comes where the array could also end, the others after a comma.
    obtain ⟨hitem, hmore⟩ := List.forall_mem_cons.mp hitems
    rw [itemChars_cons, List.append_assoc, hitem (expects_firstItem frames) ?_]
    · exact readFrom_moreItems hmore [item] frames rest
    · exact delimited_more _ more (.inl rfl)

theorem readFrom_member {key : List Char} {value : Json} (hkey : ∃ name, key = encode name)
    (hvalue : Reads value) {state : Reading} {members : List (List Char × Json)}
    {frames : List Frame} (hstep : state.step (.text key) = some (.colon members key frames))
    {rest : List Char} (hrest : Delimited rest) :
    readFrom state .blank (quoted key ++ ':' :: value.chars ++ rest) =
      readFrom (.afterMember ((key, value) :: members) frames) .blank rest := by
  obtain ⟨name, rfl⟩ := hkey
  rw [List.append_assoc, readFrom_text name hstep, List.cons_append,
    readFrom_punctuation (t := .colon) rfl rfl, hvalue (expects_value _) hrest]
  rfl

theorem memberChars_cons (member : List Char × Json) (more : List (List Char × Json)) :
    memberChars (member :: more) = quoted member.1 ++ ':' :: member.2.chars ++
      more.flatMap fun next => ',' :: (quoted next.1 ++ ':' :: next.2.chars) := by
  induction more generalizing member with
  | nil => simp [memberChars]
  | cons next more ih =>
    rw [memberChars, ih, List.flatMap_cons, List.cons_append]
    exact List.cons_ne_nil _ _

theorem readFrom_moreMembers {more : List (List Char × Json)}
    (hkeys : ∀ m ∈ more, ∃ name, m.1 = encode name) (hvalues : ∀ m ∈ more, Reads m.2)
    (members : List (List Char × Json)) (frames : List Frame) (rest : List Char) :
    readFrom (.afterMember members frames) .blank
        ((more.flatMap fun next => ',' :: (quoted next.1 ++ ':' :: next.2.chars)) ++
          '\x7d' :: rest) =
      readFrom (Reading.give (.object (members.reverse ++ more)) frames) .blank rest := by
  induction more generalizing members with
  | nil => exact readFrom_punctuation rfl (by simp [Reading.step])
  | cons member more ih =>
    obtain ⟨hkey, hkeys⟩ := List.forall_mem_cons.mp hkeys
    obtain ⟨hvalue, hvalues⟩ := List.forall_mem_cons.mp hvalues
    rw [List.flatMap_cons, List.append_assoc, List.cons_append,
      readFrom_punctuation (t := .comma) rfl rfl, readFrom_member hkey hvalue rfl ?_]
    · simpa using ih hkeys hvalues (member :: members)
    · exact delimited_more _ more (.inr rfl)

theorem reads_object {members : List (List Char × Json)}
    (hkeys : ∀ m ∈ members, ∃ name, m.1 = encode name) (hvalues : ∀ m ∈ members, Reads m.2) :
    Reads (.object members) := by
  intro state frames rest hexpects hrest
  rw [chars, List.cons_append, List.cons_append, List.append_assoc,
    readFrom_punctuation (t := .openBrace) rfl (hexpects _ nofun)]
  cases members with
  | nil => exact readFrom_punctuation rfl rfl
  | cons member more =>
    obtain ⟨hkey, hkeys⟩ := List.forall_mem_cons.mp hkeys
    obtain ⟨hvalue, hvalues⟩ := List.forall_mem_cons.mp hvalues
    rw [memberChars_cons, List.append_assoc, readFrom_member hkey hvalue rfl ?_]
    · exact readFrom_moreMembers hkeys hvalues [member] frames rest
    · exact delimited_more _ more (.inr rfl)

theorem WellSpelled.reads {j : Json} (h : WellSpelled j) : Reads j := by
  induction h with
  | null => exact reads_null
  | bool b => exact reads_bool b
  | number hparts => exact reads_number hparts
  | text s => exact reads_text s
  | array _ ih => exact reads_array ih
  | object hkeys _ ih => exact reads_object hkeys ih

/-- **Documents.** A rendered document is read back as that document. -/
theorem parse?_render {j : Json} (h : WellSpelled j) : parse? j.render = some j := by
  have hread : readFrom (.value []) .blank j.chars = some (.complete j) := by
    simpa [readFrom, tokensFrom, Reading.give] using h.reads (expects_value []) delimited_nil
  unfold readFrom at hread
  obtain ⟨tokens, htokens, hsteps⟩ := Option.bind_eq_some_iff.mp hread
  simp [parse?, render, tokens?, htokens, hsteps]

end CircuitSynthesis.Json
