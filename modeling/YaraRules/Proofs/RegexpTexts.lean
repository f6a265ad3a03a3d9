import YaraRules.Proofs.RegexpBounds

/-! The text of a regular expression that was read. The tree keeps every character, in its
place, but for one thing: a bound of a repetition is kept as a number, so the zeros in front
of its digits are lost. The text that is written is read as the same tree. -/

namespace YaraRules

namespace Regexp

variable {text left : List Char} {p : Pattern} {outer : List Frame} {frame repeated : Frame}

/-- What is written for a text that was read: zeros of bounds are left out, but none of them in
front of the next brace, so that the brace is what it was. -/
structure Rewritten (text left : List Char) : Prop where
  unpadded : Unpadded text left
  ahead : left.takeWhile (· != '\x7b') = text.takeWhile (· != '\x7b')

namespace Rewritten

theorem append (front : List Char) (rest : Rewritten text left) : Rewritten (front ++ text) (front ++ left) := by
  refine ⟨rest.unpadded.append front, ?_⟩
  rw [List.takeWhile_append, List.takeWhile_append, rest.ahead]

theorem head (rest : Rewritten text left) : left.head? = text.head? := rest.unpadded.head

end Rewritten

/-- Bounds are written between braces, and what is written is read as the same bounds whatever
follows it. -/
theorem boundsAfter_text {repetition : Repetition} {length : Nat}
    (read : boundsAfter text = .ok (some (repetition, length))) :
    ∃ again, repetition.text.toList = '\x7b' :: again ∧
      (∀ left, boundsAfter (again ++ left) = .ok (some (repetition, again.length))) ∧
      ∀ left, Unpadded (text.drop length) left → Unpadded ('\x7b' :: text) ('\x7b' :: (again ++ left)) := by
  obtain ⟨bounds, rest, rfl, rfl, valid⟩ := boundsAfter_iff.mp read
  obtain ⟨again, written, same, unpadded⟩ := valid.written
  refine ⟨again ++ ['\x7d'], written, fun left => boundsAfter_iff.mpr ⟨again, left, by simp, by simp, same⟩,
    fun left tail => ?_⟩
  rw [List.drop_length_add_append, List.drop_one, List.tail_cons] at tail
  rw [List.append_assoc]
  exact unpadded (tail.keep '\x7d')

private theorem boundsAfter_ahead (same : left.takeWhile (· != '\x7b') = text.takeWhile (· != '\x7b')) :
    boundsAfter left = boundsAfter text := by
  unfold boundsAfter
  rw [← boundsText_ahead left, same, boundsText_ahead]

/-! ### Classes -/

/-- The body of a class is what stands in front of its bracket, whatever follows it. -/
theorem classBody_text {body : List Char} {length : Nat} (read : classBody text = .ok (body, length)) :
    length = body.length + 1 ∧ text = body ++ ']' :: text.drop length ∧
      ∀ left, classBody (body ++ ']' :: left) = .ok (body, length) := by
  fun_induction classBody text generalizing body length with
  | case1 => cases read
  | case2 rest =>
    cases read
    exact ⟨rfl, rfl, fun left => rfl⟩
  | case3 => cases read
  | case4 c rest ih =>
    obtain ⟨⟨inner, size⟩, found, result⟩ := read_bind read
    obtain ⟨rfl, rfl⟩ : '\\' :: c :: inner = body ∧ size + 2 = length := by simpa [pure, Except.pure] using result
    obtain ⟨rfl, split, again⟩ := ih found
    refine ⟨rfl, ?_, fun left => ?_⟩
    · rw [List.drop_succ_cons, List.drop_succ_cons, List.cons_append, List.cons_append, ← split]
    · rw [List.cons_append, List.cons_append, classBody, again]
      rfl
  | case5 c rest bracket alone escape =>
    rename_i ih
    obtain ⟨⟨inner, size⟩, found, result⟩ := read_bind read
    obtain ⟨rfl, rfl⟩ : c :: inner = body ∧ size + 1 = length := by simpa [pure, Except.pure] using result
    obtain ⟨rfl, split, again⟩ := ih found
    have plain : c ≠ '\\' := by
      rintro rfl
      cases rest with
      | nil => exact alone rfl rfl
      | cons d rest => exact escape d rest rfl rfl
    refine ⟨rfl, ?_, fun left => ?_⟩
    · rw [List.drop_succ_cons, List.cons_append, ← split]
    · rw [List.cons_append, classBody.eq_5 c _ bracket (fun same => absurd same plain) (fun d rest same =>
        absurd same plain), again]
      rfl

private theorem optional_head (c : Char) (text : List Char) : ∃ (here : Bool)
    (rest : List Char), text = (if here then [c] else []) ++ rest ∧ (here = false → rest.head? ≠ some c) := by
  by_cases here : text.head? = some c
  · obtain ⟨rest, rfl⟩ := List.head?_eq_some_iff.mp here
    exact ⟨true, rest, rfl, fun none => by cases none⟩
  · exact ⟨false, text, rfl, fun _ => here⟩

/-- A class with what it may start with: a caret, and a bracket that belongs to it. -/
theorem classAfter_parts {negated bracket : Bool} {inner : List Char}
    (caret : negated = false → ((if bracket then [']'] else []) ++ inner).head? ≠ some '^')
    (first : bracket = false → inner.head? ≠ some ']') :
    classAfter ((if negated then ['^'] else []) ++ ((if bracket then [']'] else []) ++ inner)) = (do
      let (body, length) ← classBody inner
      return (.charClass negated (String.ofList ((if bracket then [']'] else []) ++ body)),
        length + (if negated then 1 else 0) + (if bracket then 1 else 0))) := by
  have opening : (((if negated then ['^'] else []) ++ ((if bracket then [']'] else []) ++ inner)).head? == some '^') =
      negated := by
    cases negated with
    | true => rfl
    | false => exact beq_eq_false_iff_ne.mpr (caret rfl)
  have leading : (((if bracket then [']'] else []) ++ inner).head? == some ']') = bracket := by
    cases bracket with
    | true => rfl
    | false => exact beq_eq_false_iff_ne.mpr (first rfl)
  have behind : (if negated then ((if negated then ['^'] else []) ++ ((if bracket then [']'] else []) ++ inner)).drop 1
      else (if negated then ['^'] else []) ++ ((if bracket then [']'] else []) ++ inner)) =
      (if bracket then [']'] else []) ++ inner := by cases negated <;> rfl
  have inside : (if bracket then ((if bracket then [']'] else []) ++ inner).drop 1 else
    (if bracket then [']'] else []) ++ inner) =
      inner := by cases bracket <;> rfl
  unfold classAfter
  simp only [opening, behind, leading, inside]
  cases bracket <;> rfl

/-- A class is written as it was read, and what is written is read as the same class whatever
follows it. -/
theorem classAfter_text {length : Nat} (read : classAfter text = .ok (p, length)) :
    ∃ again, p.text.toList = '[' :: again ∧ text = again ++ text.drop length ∧
      ∀ left, classAfter (again ++ left) = .ok (p, again.length) := by
  obtain ⟨negated, rest, rfl, caret⟩ := optional_head '^' text
  obtain ⟨bracket, inner, rfl, first⟩ := optional_head ']' rest
  rw [classAfter_parts caret first] at read
  obtain ⟨⟨body, size⟩, found, result⟩ := read_bind read
  obtain ⟨rfl, rfl⟩ := Prod.mk.inj (Except.ok.inj result)
  obtain ⟨rfl, split, again⟩ := classBody_text found
  -- What follows the class does not change what it starts with.
  have head (tail : List Char) : (body ++ ']' :: tail).head? = inner.head? := by
    rw [split]
    cases body <;> rfl
  refine ⟨(if negated then ['^'] else []) ++ ((if bracket then [']'] else []) ++ (body ++ [']'])), ?_,
    ?_, fun left => ?_⟩
  · rw [Pattern.text]
    cases negated <;> simp [String.toList_append]
  · nth_rewrite 1 [split]
    cases negated <;> cases bracket <;> simp
  · have found : classBody (body ++ ']' :: left) = .ok (body, body.length + 1) := again left
    have caret : negated = false → ((if bracket then [']'] else []) ++ (body ++ ']' :: left)).head? ≠
      some '^' := fun none => by
      have other := caret none
      rwa [List.head?_append, head, ← List.head?_append]
    have first : bracket = false → (body ++ ']' :: left).head? ≠ some ']' := fun none => by
      rw [head]
      exact first none
    have whole := classAfter_parts caret first
    rw [found] at whole
    rw [List.append_assoc, List.append_assoc, List.append_assoc, List.singleton_append, whole]
    cases negated <;> cases bracket <;> simp [pure, Except.pure, bind, Except.bind]

/-! ### Groups -/

private theorem texts_eq (ps : List Pattern) : Pattern.texts ps = ps.map (·.text) := by
  induction ps with
  | nil => rfl
  | cons p ps ih => rw [Pattern.texts, ih, List.map_cons]

private theorem intercalate_last {α : Type} (separator last : List α) (others : List (List α)) :
    separator.intercalate (others ++ [last]) = others.flatMap (· ++ separator) ++ last := by
  induction others with
  | nil => rw [List.nil_append, List.intercalate_singleton]; rfl
  | cons first others ih =>
    cases others with
    | nil => simp [List.intercalate_cons_cons]
    | cons second others =>
      rw [List.cons_append, List.cons_append, List.intercalate_cons_cons, ← List.cons_append, ih]
      simp only [List.flatMap_cons, List.append_assoc]

theorem intercalate_nothing {α : Type} (rows : List (List α)) : [].intercalate rows = rows.flatten := by
  induction rows with
  | nil => rfl
  | cons first rows ih =>
    cases rows with
    | nil => rw [List.intercalate_singleton, List.flatten_singleton]
    | cons second rows => rw [List.intercalate_cons_cons, ih, List.append_nil, ← List.flatten_cons]

namespace Frame

private theorem alternative_text (frame : Frame) :
    frame.alternative.text.toList = frame.parts.reverse.flatMap (·.text.toList) := by
  unfold alternative
  split
  next part single => rw [single, List.flatMap_singleton]
  next =>
    rw [Pattern.text, texts_eq, String.toList_intercalate, List.map_map, List.flatMap_def]
    exact intercalate_nothing _

private theorem content_text (frame : Frame) : frame.content.text.toList = frame.alternatives.reverse.flatMap
    (fun p => p.text.toList ++ ['|']) ++ frame.parts.reverse.flatMap (·.text.toList) := by
  rw [← alternative_text]
  unfold content
  rw [List.reverse_cons]
  split
  next p single =>
    obtain ⟨none, rfl⟩ : frame.alternatives = [] ∧ frame.alternative = p := by
      rw [List.append_eq_singleton_iff] at single
      simpa using single
    rw [none]
    rfl
  next =>
    rw [Pattern.text, texts_eq, String.toList_intercalate, List.map_map, List.map_append, List.map_singleton,
      intercalate_last, List.flatMap_map]
    rfl

private theorem add_text (frame : Frame) (p : Pattern) : (frame.add p).content.text.toList =
    frame.content.text.toList ++ p.text.toList := by
  rw [content_text, content_text, add, List.reverse_cons, List.flatMap_append, List.flatMap_singleton,
    List.append_assoc]

private theorem nextAlternative_text (frame : Frame) : frame.nextAlternative.content.text.toList =
    frame.content.text.toList ++ ['|'] := by
  rw [content_text, content_text, nextAlternative, List.reverse_cons, List.flatMap_append, List.flatMap_singleton,
    alternative_text]
  simp

private theorem repeatLast_text {repetition : Repetition} {lazy : Bool}
    (read : frame.repeatLast repetition lazy = .ok repeated) : repeated.content.text.toList =
    frame.content.text.toList ++ (repetition.text.toList ++ if lazy then ['?'] else []) := by
  unfold repeatLast at read
  split at read
  next => cases read
  next part parts found =>
    split at read
    · cases read
    · obtain rfl := Except.ok.inj read
      rw [content_text, content_text, found, List.reverse_cons, List.reverse_cons, List.flatMap_append,
        List.flatMap_append, List.flatMap_singleton, List.flatMap_singleton, Pattern.text]
      cases lazy <;> simp

end Frame

/-- The text in front of the innermost of the groups that are open. -/
def opened : List Frame → List Char
  | [] => []
  | frame :: outer => opened outer ++ frame.content.text.toList ++ ['(']

private theorem lazy_text (rest : Rewritten (text.drop (if text.head? == some '?' then 1 else 0)) left) :
    Rewritten text ((if text.head? == some '?' then ['?'] else []) ++ left) ∧
      (((if text.head? == some '?' then ['?'] else []) ++ left).head? == some '?') = (text.head? == some '?') ∧
      ((if text.head? == some '?' then ['?'] else []) ++ left).drop
      (if text.head? == some '?' then 1 else 0) = left := by
  by_cases lazy : text.head? = some '?'
  · obtain ⟨rest', rfl⟩ := List.head?_eq_some_iff.mp lazy
    exact ⟨rest.append ['?'], rfl, rfl⟩
  · have greedy : (text.head? == some '?') = false := beq_eq_false_iff_ne.mpr lazy
    rw [greedy] at rest ⊢
    refine ⟨rest, beq_eq_false_iff_ne.mpr ?_, rfl⟩
    have head : left.head? = text.head? := rest.head
    exact fun same => lazy (head.symm.trans same)

private theorem written_behind {front later added whole rest : List Char} {again : List Char → Prop}
    (same : later = front ++ added)
    (ih : ∃ left, whole = opened outer ++ later ++ left ∧ Rewritten rest left ∧ again left)
    (covers : ∀ left, Rewritten rest left → again left →
      Rewritten text (added ++ left) ∧ readFrom outer frame 0 (added ++ left) = .ok p) :
    ∃ left, whole = opened outer ++ front ++ left ∧ Rewritten text left ∧ readFrom outer frame 0 left = .ok p := by
  obtain ⟨left, written, rewritten, read⟩ := ih
  refine ⟨added ++ left, ?_, covers left rewritten read⟩
  rw [written, same]
  simp only [List.append_assoc]

private theorem readFrom_skip (outer : List Frame) (frame : Frame) (skip : Nat) (text : List Char) :
    readFrom outer frame skip text = readFrom outer frame 0 (text.drop skip) := by
  induction skip generalizing text with
  | zero => rfl
  | succ skip ih =>
    cases text with
    | nil => rfl
    | cons c rest => exact ih rest

private theorem simpleRepetition_text {c : Char} {repetition : Repetition}
    (simple : simpleRepetition? c = some repetition) : repetition.text.toList = [c] := by
  unfold simpleRepetition? at simple
  split at simple <;> first | (cases simple; rfl) | cases simple

private theorem simplePart_text (c : Char) : (simplePart c).text.toList = [c] := by
  unfold simplePart
  split
  all_goals rw [Pattern.text]
  all_goals first | rfl | exact String.toList_ofList

private theorem readFrom_bracket (outer : List Frame) (frame : Frame) (text : List Char) :
    readFrom outer frame 0 ('[' :: text) =
    match classAfter text with
    | .ok (part, length) => readFrom outer (frame.add part) length text
    | .error fault => .error fault := rfl

/-- What is read behind the open groups is written behind them, and read again as the same pattern. -/
theorem readFrom_again {skip : Nat} (read : readFrom outer frame skip text = .ok p) :
    ∃ left, p.text.toList = opened outer ++ frame.content.text.toList ++ left ∧ Rewritten (text.drop skip) left ∧
      readFrom outer frame 0 left = .ok p := by
  fun_induction readFrom outer frame skip text with
  | case1 outer frame skip none =>
    obtain rfl := List.isEmpty_iff.mp none
    refine ⟨[], ?_, ⟨by simpa using Unpadded.nil, by simp⟩, read⟩
    obtain rfl := Except.ok.inj read
    simp [opened]
  | case3 outer frame skip c rest ih => exact ih read
  | case4 outer frame c rest opens ih =>
    obtain rfl := beq_iff_eq.mp opens
    obtain ⟨left, written, rewritten, again⟩ := ih read
    refine ⟨'(' :: left, ?_, rewritten.append ['('], again⟩
    rw [written, opened, Frame.content_text {}]
    simp
  | case6 frame c rest _ closes around outer ih =>
    obtain rfl := beq_iff_eq.mp closes
    obtain ⟨left, written, rewritten, again⟩ := ih read
    refine ⟨')' :: left, ?_, rewritten.append [')'], again⟩
    rw [written, opened, Frame.add_text, Pattern.text]
    simp [String.toList_append]
  | case7 outer frame c rest _ _ bar ih =>
    obtain rfl := beq_iff_eq.mp bar
    exact written_behind frame.nextAlternative_text (ih read) fun left rest again => ⟨rest.append ['|'], again⟩
  | case8 outer frame c rest _ _ _ bracket part length found ih =>
    obtain rfl := beq_iff_eq.mp bracket
    obtain ⟨body, written, whole, same⟩ := classAfter_text found
    refine written_behind (frame.add_text part) (ih read) fun left tail again => ?_
    rw [written]
    refine ⟨?_, ?_⟩
    · rw [List.drop_zero, whole]
      exact tail.append ('[' :: body)
    · rw [List.cons_append, readFrom_bracket, same left]
      dsimp only
      rw [readFrom_skip, List.drop_left, again]
  | case11 outer frame c _ _ _ _ backslash e rest ih =>
    obtain rfl := beq_iff_eq.mp backslash
    refine written_behind (frame.add_text _) (ih read) fun left rest again => ?_
    rw [Pattern.text, String.toList_ofList]
    exact ⟨rest.append ['\\', e], again⟩
  | case12 outer frame c rest opens closes bar bracket backslash repetition simple lazy repeated done ih =>
    refine written_behind (Frame.repeatLast_text done) (ih read) fun left tail again => ?_
    obtain ⟨rewritten, head, dropped⟩ := lazy_text tail
    rw [simpleRepetition_text simple]
    refine ⟨rewritten.append [c], ?_⟩
    rw [List.cons_append, List.cons_append, List.nil_append, readFrom.eq_def]
    dsimp only
    rw [if_neg opens, if_neg closes, if_neg bar, if_neg bracket, if_neg backslash]
    simp only [simple]
    rw [head, done]
    dsimp only
    rw [readFrom_skip, dropped, again]
  | case15 outer frame c rest opens closes bar bracket backslash simple brace none ih =>
    refine written_behind (frame.add_text _) (ih read) fun left tail again => ?_
    rw [Pattern.text, String.toList_ofList]
    refine ⟨tail.append [c], ?_⟩
    rw [List.singleton_append, readFrom.eq_def]
    dsimp only
    rw [if_neg opens, if_neg closes, if_neg bar, if_neg bracket, if_neg backslash]
    simp only [simple]
    rw [if_pos brace, boundsAfter_ahead tail.ahead]
    simp only [List.drop_zero, none, again]
  | case16 outer frame c rest opens closes bar bracket backslash simple brace repetition length bounds lazy repeated done ih =>
    refine written_behind (Frame.repeatLast_text done) (ih read) fun left tail again => ?_
    obtain ⟨rfl, -⟩ : c = '\x7b' ∧ _ := by simpa using brace
    obtain ⟨inside, written, same, unpadded⟩ := boundsAfter_text bounds
    have tail : Rewritten ((rest.drop length).drop (if lazy then 1 else 0)) left := by
      rw [List.drop_drop]
      simpa only [lazy, apply_ite, Nat.add_zero] using tail
    obtain ⟨rewritten, head, dropped⟩ := lazy_text tail
    rw [written, List.append_assoc, List.cons_append]
    refine ⟨⟨unpadded _ rewritten.unpadded, rfl⟩, ?_⟩
    rw [readFrom.eq_def]
    dsimp only
    rw [if_neg opens, if_neg closes, if_neg bar, if_neg bracket, if_neg backslash]
    simp only [simple]
    rw [if_pos brace, same]
    dsimp only
    rw [List.drop_left, head, done]
    dsimp only
    have length : ((if lazy then inside.length + 1 else inside.length) : Nat) = inside.length +
        if lazy then 1 else 0 := by
      cases lazy <;> rfl
    rw [readFrom_skip, length, ← List.drop_drop, List.drop_left, dropped, again]
  | case18 outer frame c rest opens closes bar bracket backslash simple brace ih =>
    refine written_behind (frame.add_text _) (ih read) fun left tail again => ?_
    rw [simplePart_text]
    refine ⟨tail.append [c], ?_⟩
    rw [List.singleton_append, readFrom.eq_def]
    dsimp only
    rw [if_neg opens, if_neg closes, if_neg bar, if_neg bracket, if_neg backslash]
    simp only [simple]
    rw [if_neg brace, again]
  | _ => cases read

private theorem readFrom_text {skip : Nat} (read : readFrom outer frame skip text = .ok p) :
    ∃ left, p.text.toList = opened outer ++ frame.content.text.toList ++ left ∧ Unpadded (text.drop skip) left := by
  obtain ⟨left, written, rewritten, _⟩ := readFrom_again read
  exact ⟨left, written, rewritten.unpadded⟩

theorem splitLast_eq {c : Char} {before after : List Char} (found : splitLast c text = some (before, after)) :
    text = before ++ c :: after := by
  induction text generalizing before with
  | nil => cases found
  | cons d rest ih =>
    rw [splitLast] at found
    split at found
    next inner _ split =>
      obtain ⟨rfl, rfl⟩ := Prod.mk.inj (Option.some.inj found)
      rw [ih split, List.cons_append]
    next =>
      split at found
      next same =>
        obtain ⟨rfl, rfl⟩ := Prod.mk.inj (Option.some.inj found)
        rw [beq_iff_eq.mp same, List.nil_append]
      next => cases found

/-- What is read is a pattern between slashes, and modifiers behind it, none of them another letter than `i` and `s`. -/
theorem read_done {source : String} {r : Regexp} (read : Regexp.read source = .ok r) : ∃ pattern,
    source.toList = '/' :: (pattern ++ '/' :: r.modifiers.toList) ∧ (∀ c ∈ r.modifiers.toList, c = 'i' ∨ c = 's') ∧
      readFrom [] {} 0 pattern = .ok r.pattern := by
  unfold Regexp.read at read
  split at read
  next body slash =>
    split at read
    next => cases read
    next pattern modifiers split =>
      split at read
      next => cases read
      next known =>
        obtain ⟨p, parsed, result⟩ := read_bind read
        obtain rfl := Except.ok.inj result
        refine ⟨pattern, ?_, fun c member => ?_, parsed⟩
        · rw [slash, splitLast_eq split, String.toList_ofList]
        · have here := List.find?_eq_none.mp known c (by simpa using member)
          by_cases i : c = 'i'
          · exact .inl i
          · exact .inr (by simpa [i] using here)
  next => cases read

/-- A regular expression is written as it was read, but for the zeros in front of the bounds
of its repetitions; without such zeros, it is written exactly so. -/
theorem read_text {source : String} {r : Regexp} (read : Regexp.read source = .ok r) :
    Unpadded source.toList r.text.toList ∧ (¬Padded source.toList → r.text = source) := by
  have unpadded : Unpadded source.toList r.text.toList := by
    obtain ⟨pattern, split, _, parsed⟩ := read_done read
    obtain ⟨left, written, unpadded⟩ := readFrom_text parsed
    rw [split, Regexp.text, String.toList_append, String.toList_append, String.toList_append, written]
    have whole := (unpadded.append_right ('/' :: r.modifiers.toList)).keep '/'
    simpa [opened, Frame.content_text] using whole
  exact ⟨unpadded, fun bare => String.toList_inj.mp (unpadded.eq_of_not_padded bare)⟩

theorem read_text_padded : ∃ r, Regexp.read "/a\x7b01\x7d/" = .ok r ∧ r.text = "/a\x7b1\x7d/" ∧
    Unpadded "/a\x7b01\x7d/".toList r.text.toList ∧ Padded "/a\x7b01\x7d/".toList := by
  have read : Regexp.read "/a\x7b01\x7d/" = .ok ⟨.iteration (.char 'a') (.exactly 1) true, ""⟩ := rfl
  exact ⟨_, read, by decide, (read_text read).1, ['/', 'a'], '\x7b', '1', ['\x7d', '/'], by decide, .inl rfl, by decide⟩

/-- The tree of a pattern is stable. Reading ends with a fault or with a tree of the whole pattern,
written without the zeros of its bounds; what is written is read as the same tree. -/
theorem readPattern_stable (text : String) :
    (∃ p, readPattern text = .ok p ∧ Unpadded text.toList p.text.toList ∧ readPattern p.text = .ok p) ∨
      ∃ fault, readPattern text = .error fault := by
  cases read : readPattern text with
  | error fault => exact .inr ⟨fault, rfl⟩
  | ok p =>
    obtain ⟨left, written, rewritten, again⟩ := readFrom_again read
    have same : p.text.toList = left := by
      rw [written, Frame.content_text]
      rfl
    refine .inl ⟨p, rfl, same ▸ rewritten.unpadded, ?_⟩
    rw [readPattern, same, again]

end Regexp

end YaraRules
