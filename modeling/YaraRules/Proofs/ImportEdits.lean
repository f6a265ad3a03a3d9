import YaraRules.Proofs.FormattedWords
import YaraRules.Proofs.Outcomes

/-! Edits of imports. A statement is written behind the last one and its module added at the
end; the statement of a module that goes is taken out with all that stands between its two
words. So the file has the modules that its statements name, as long as no two of them
name the same one. -/

namespace YaraRules

open TokenStream (Tidy Spot Grows split_unique wordsOf beginsImport)

section

variable {α : Type} {p : α → Bool}

private theorem mem_followed {a b : α} {items : List α} :
    (a, some b) ∈ followed p items ↔ p a = true ∧ ∃ front back, items = front ++ a :: b :: back := by
  induction items with
  | nil => simp [followed]
  | cons c rest ih =>
    constructor
    · intro member
      have inside (deeper : (a, some b) ∈ followed p rest) :
          p a = true ∧ ∃ front back, c :: rest = front ++ a :: b :: back := by
        obtain ⟨holds, front, back, rfl⟩ := ih.mp deeper
        exact ⟨holds, c :: front, back, rfl⟩
      rw [followed] at member
      split_ifs at member with holds
      · rcases List.mem_cons.mp member with here | deeper
        · obtain ⟨rfl, next⟩ := Prod.mk.inj here
          obtain ⟨back, rfl⟩ := List.head?_eq_some_iff.mp next.symm
          exact ⟨holds, [], back, rfl⟩
        · exact inside deeper
      · exact inside member
    · rintro ⟨holds, front, back, split⟩
      cases front with
      | nil =>
        obtain ⟨rfl, rfl⟩ := List.cons.inj split
        simp [followed, holds]
      | cons d front =>
        obtain ⟨rfl, rfl⟩ := List.cons.inj split
        have deeper := ih.mpr ⟨holds, front, back, rfl⟩
        rw [followed]
        split_ifs
        · exact List.mem_cons_of_mem _ deeper
        · exact deeper

private theorem followed_last {a : α} {next : Option α} :
    ∀ {items : List α}, (followed p items).getLast? = some (a, next) →
    ∃ front back, items = front ++ a :: back ∧ back.head? = next ∧ ∀ b ∈ back, p b = false
  | c :: rest, last => by
    have later (deeper : (followed p rest).getLast? = some (a, next)) :
        ∃ front back, c :: rest = front ++ a :: back ∧ back.head? = next ∧ ∀ b ∈ back, p b = false := by
      obtain ⟨front, back, same, head, none⟩ := followed_last deeper
      exact ⟨c :: front, back, by rw [same, List.cons_append], head, none⟩
    rw [followed] at last
    split_ifs at last
    · cases deeper : followed p rest with
      | nil =>
        rw [deeper] at last
        obtain ⟨rfl, same⟩ := Prod.mk.inj (Option.some.inj last)
        refine ⟨[], rest, rfl, same, fun b member => Bool.eq_false_iff.mpr fun holds => ?_⟩
        obtain ⟨after, inside⟩ := followed_of_mem holds member
        simp [deeper] at inside
      | cons first more =>
        rw [deeper, List.getLast?_cons_cons] at last
        exact later (deeper ▸ last)
    · exact later last

private theorem followed_keys : ∀ items : List α, ((followed p items).map (·.1)).Sublist items
  | [] => .slnil
  | a :: rest => by
    rw [followed]
    split_ifs
    · exact (followed_keys rest).cons_cons a
    · exact (followed_keys rest).cons a

end

namespace TokenStream

variable {s after : TokenStream} {ahead middle behind : List Spot} {keyword name stop : Handle}

private theorem Tidy.words_nodup (tidy : s.Tidy) : (s.words.map (·.1)).Nodup :=
  tidy.nodup.sublist (List.filter_sublist.map _)

private theorem statementsOf_append (plain : ∀ word ∈ ahead.getLast?, beginsImport word = false) (behind : List Spot) :
    statementsOf (ahead ++ behind) = statementsOf ahead ++ statementsOf behind := by
  rw [statementsOf, followed_append plain, List.map_append]
  rfl

private theorem statementsOf_none (none : ∀ word ∈ behind, beginsImport word = false) : statementsOf behind = [] := by
  rw [statementsOf, followed_none none]
  rfl

private theorem statementsOf_cons {first second : Spot} (begins : beginsImport first = true)
    (goes : beginsImport second = false) : statementsOf (first :: second :: behind) = (first.1, some second.1) ::
    statementsOf behind := by
  simp [statementsOf, followed, begins, goes]

private theorem statements_nodup (tidy : s.Tidy) : s.statements.Nodup := by
  refine List.Nodup.of_map (·.1) (tidy.words_nodup.sublist ?_)
  have keys : s.statements.map (·.1) = ((followed beginsImport s.words).map (·.1)).map (·.1) := by
    simp [statements, statementsOf, Function.comp_def]
  rw [keys]
  exact (followed_keys _).map _

private theorem statements_insert (split : s.spots = ahead ++ behind)
    (view : after.spots = ahead ++ [(keyword, .kwImport, false)] ++ [(name, .string, false)] ++
    [(stop, .newLine, false)] ++ behind) (plain : ∀ word ∈ (wordsOf ahead).getLast?, beginsImport word = false)
    (none : ∀ word ∈ wordsOf behind, beginsImport word = false) : after.statements = s.statements ++
    [(keyword, some name)] := by
  have line : wordsOf ((keyword, .kwImport, false) :: (name, .string, false) :: (stop, .newLine, false) :: behind) =
      (keyword, .kwImport, false) :: (name, .string, false) :: wordsOf behind := rfl
  rw [statements, statements, words, words, view, split]
  simp only [wordsOf_append, List.append_assoc, List.cons_append, List.nil_append]
  rw [line, statementsOf_append plain, statementsOf_append plain, statementsOf_cons rfl rfl, statementsOf_none none,
    List.append_nil]

/-- A statement is taken out, and the word in front of it does not begin another one. -/
theorem statements_erase (split : s.spots = ahead ++ (middle ++ behind)) (view : after.spots = ahead ++ behind)
    {first second : Spot}
    (line : wordsOf middle = [first, second]) (begins : beginsImport first = true) (goes : beginsImport second = false)
    (plain : ∀ word ∈ (wordsOf ahead).getLast?, beginsImport word = false) :
    s.statements = statementsOf (wordsOf ahead) ++ (first.1, some second.1) :: statementsOf (wordsOf behind) ∧
      after.statements = statementsOf (wordsOf ahead) ++ statementsOf (wordsOf behind) := by
  rw [statements, statements, words, words, split, view]
  simp only [wordsOf_append, line, List.cons_append, List.nil_append]
  rw [statementsOf_append plain, statementsOf_append plain, statementsOf_cons begins goes]
  exact ⟨rfl, rfl⟩

end TokenStream

namespace TokenEdit

variable {s after : TokenStream}

private theorem insertAt_stored (tidy : s.Tidy) {anchor : Option Handle} {token : Token} {new : Handle}
    (done : Succeeds (insertAt anchor token) s new after) : after.get? new = some token ∧ Grows s after := by
  cases anchor with
  | none =>
    have run : ((.ok (s.push token).1, (s.push token).2) : Except EditError Handle × TokenStream) =
      (.ok new, after) := done
    obtain ⟨rfl, rfl⟩ : (s.push token).1 = new ∧ (s.push token).2 = after := by simpa using run
    exact tidy.get?_push token
  | some before => exact tidy.get?_insertBefore (succeeds_apply done)

end TokenEdit

namespace FileEdit

variable {file file' : RuleFile} {name : String}

/-- A known module is added on a line behind the last import, unless it is imported already. -/
theorem addImport_done {added : Bool} (done : Succeeds (addImport name) file added file') : file' = file ∨
    ∃ pool imported keyword word stop tokens₁ tokens₂ tokens₃, file.hasImport name = false ∧ imported.name = name ∧
    name ∈ Module.known ∧
      Succeeds (TokenEdit.insertAt (importAnchor file) (.fixed .kwImport)) file.tokens keyword tokens₁ ∧
      Succeeds (TokenEdit.insertAt
      (importAnchor file) { kind := .string, literal := .ofWritten name }) tokens₁ word tokens₂ ∧
      Succeeds (TokenEdit.insertAt (importAnchor file) file.tokens.newline) tokens₂ stop tokens₃ ∧
      file' = { file with pool, tokens := tokens₃, imports := file.imports ++ [⟨keyword, word, imported⟩] } := by
  have rest := done.get_bind
  split at rest
  next =>
    cases rest
    exact .inl rfl
  next absent =>
    have rest := rest.get_bind.get_bind
    dsimp only at rest
    have rest := rest.modify_bind
    split at rest
    next => cases rest
    next imported loaded =>
      have rest := rest.get_bind
      dsimp only at rest
      obtain ⟨keyword, tokens₁, inserted₁, rest⟩ := onTokens_bind rest
      obtain ⟨word, tokens₂, inserted₂, rest⟩ := onTokens_bind rest
      obtain ⟨stop, tokens₃, inserted₃, rest⟩ := onTokens_bind rest
      cases rest
      obtain ⟨named, known⟩ := load_name loaded
      exact .inr ⟨_, imported, keyword, word, stop, tokens₁, tokens₂, tokens₃, by simpa using absent, named, known,
        inserted₁, inserted₂, inserted₃, rfl⟩

private theorem removeImport_done {removed : Bool}
    (done : Succeeds (removeImport name) file removed file') : file' = file ∨
    ∃ index, ∃ inside : index < file.imports.length, ∃ tokens,
      Succeeds (TokenEdit.eraseLine file.imports[index].keyword file.imports[index].name) file.tokens () tokens ∧
      file' = { file with tokens, imports := file.imports.eraseIdx index } := by
  have rest := done.get_bind
  dsimp only at rest
  split at rest
  next =>
    cases rest
    exact .inl rfl
  next index found =>
    have rest := rest.guard.2.modify_bind
    have inside : index < file.imports.length := (List.findIdx?_eq_some_iff_getElem.mp found).1
    rw [List.getElem?_eq_getElem inside] at rest
    obtain ⟨_, middle, looped, rest⟩ := rest.bind
    obtain ⟨_, first, none⟩ := looped.for_cons
    obtain ⟨tokens, erased, rfl⟩ := succeeds_onTokens first
    cases none
    cases rest
    exact .inr ⟨index, inside, tokens, erased, rfl⟩

end FileEdit

namespace RuleFile

variable {file file' : RuleFile} {name : String}

/-- Handles of a statement in the words of the tokens. -/
theorem Stated.statement (stated : file.Stated) {i : Import} (member : i ∈ file.imports) : ∃ front first second back,
    file.tokens.words = front ++ first :: second :: back ∧ first.1 = i.keyword ∧ second.1 = i.name ∧
      TokenStream.beginsImport first = true ∧ second.2.1 = .string := by
  have listed : (i.keyword, some i.name) ∈ file.tokens.statements := stated.statements ▸ List.mem_map_of_mem member
  obtain ⟨⟨first, next⟩, inside, same⟩ := List.mem_map.mp listed
  obtain ⟨keyword, found⟩ := Prod.mk.inj same
  obtain ⟨second, rfl, name⟩ := Option.map_eq_some_iff.mp found
  obtain ⟨begins, front, back, split⟩ := mem_followed.mp inside
  refine ⟨front, first, second, back, split, keyword, name, begins, ?_⟩
  have tidy := stated.ordered.listed.tidy
  obtain ⟨a, tells, kind, _⟩ := stated.named i member
  obtain ⟨owned, there⟩ := tidy.spot_of_get? tells.1
  have here : second ∈ file.tokens.spots := List.mem_of_mem_filter (show second ∈ file.tokens.words by simp [split])
  rw [List.inj_on_of_nodup_map tidy.nodup here there name, kind]

/-- No statement begins behind the place for a new one, nor right in front of it. -/
theorem Stated.place (stated : file.Stated) : ∃ ahead behind, file.tokens.spots = ahead ++ behind ∧
    behind.head?.map (·.1) = FileEdit.importAnchor file ∧
    (∀ word ∈ (wordsOf ahead).getLast?, beginsImport word = false) ∧
      ∀ word ∈ wordsOf behind, beginsImport word = false := by
  have tidy := stated.ordered.listed.tidy
  unfold FileEdit.importAnchor
  cases last : file.imports.getLast? with
  | none =>
    have nothing : followed beginsImport file.tokens.words = [] := by
      have empty := stated.statements
      rw [List.getLast?_eq_none_iff.mp last] at empty
      exact List.map_eq_nil_iff.mp empty
    have none : ∀ word ∈ file.tokens.words, beginsImport word = false :=
      fun word member => Bool.eq_false_iff.mpr fun begins => by
      obtain ⟨next, inside⟩ := followed_of_mem begins member
      simp [nothing] at inside
    dsimp only
    cases begins : file.tokens.first? with
    | none =>
      exact ⟨_, [], (List.append_nil _).symm, rfl, fun word last => none word (List.mem_of_getLast? last), nofun⟩
    | some start =>
      obtain ⟨next, behind, split, rfl⟩ := tidy.first_spots begins
      exact ⟨[], _, split, rfl, nofun, fun word member => none word (show word ∈ wordsOf _ by rwa [split])⟩
  | some other =>
    have ending : file.tokens.statements.getLast? = some (other.keyword, some other.name) := by
      rw [stated.statements, List.getLast?_map, last]
      rfl
    rw [TokenStream.statements, TokenStream.statementsOf, List.getLast?_map] at ending
    obtain ⟨⟨first, next⟩, final, same⟩ := Option.map_eq_some_iff.mp ending
    obtain ⟨second, rfl, name⟩ := Option.map_eq_some_iff.mp (Prod.mk.inj same).2
    obtain ⟨front, rest, split, next, none⟩ := followed_last final
    obtain ⟨back, rfl⟩ := List.head?_eq_some_iff.mp next
    have word : second ∈ file.tokens.words := by simp [split]
    -- Words from the name of the last statement on begin no other, so the name has to be in front of the place.
    have settled {ahead behind : List Spot} (parts : file.tokens.spots = ahead ++ behind) (inside : second ∈ ahead) :
        (∀ word ∈ (wordsOf ahead).getLast?, beginsImport word = false) ∧ ∀ word ∈ wordsOf behind,
          beginsImport word = false := by
      have held : second ∈ wordsOf ahead := List.mem_filter.mpr ⟨inside, (List.mem_filter.mp word).2⟩
      obtain ⟨left, right, around⟩ := List.append_of_mem held
      have whole : (front ++ [first]) ++ second :: back = left ++ second :: (right ++ wordsOf behind) := by
        have words : file.tokens.words = wordsOf ahead ++ wordsOf behind := by
          rw [TokenStream.words, parts, TokenStream.wordsOf_append]
        rw [around] at words
        simpa [split] using words
      obtain ⟨_, _, rfl⟩ := split_unique (by simpa [split] using tidy.words_nodup) whole rfl
      refine ⟨fun word last => none word ?_, fun word member => none word (by simp [member])⟩
      have member : word ∈ second :: right := List.mem_of_getLast? (by simpa [around, List.getLast?_append] using last)
      rcases List.mem_cons.mp member with rfl | member <;> simp [*]
    have row := stated.ordered.listed.sublist (List.mem_append_left _ (List.mem_map_of_mem (List.mem_of_getLast? last)))
    have listed : ([other.keyword] ++ other.name :: []).Sublist file.tokens.code := row
    dsimp only
    cases follows : file.tokens.next? (file.tokens.lineEnd other.name) with
    | none =>
      have parts := (List.append_nil file.tokens.spots).symm
      exact ⟨_, [], parts, rfl, settled parts (List.mem_of_mem_filter word)⟩
    | some start =>
      obtain ⟨_, ahead, next, behind, parts, rfl, left, _⟩ := tidy.next_line follows listed
      obtain ⟨kind, _, here⟩ := TokenStream.mem_codeOf.mp (left.subset (by simp : other.name ∈ _))
      have same : (other.name, kind, false) = second :=
        List.inj_on_of_nodup_map tidy.nodup (by simp [parts, here]) (List.mem_of_mem_filter word) name.symm
      exact ⟨ahead, next :: behind, parts, rfl, settled parts (same ▸ here)⟩

private theorem alone_iff : file.Alone ↔ ∀ word ∈ file.tokens.words, word.2.1 ≠ .kwInclude :=
  List.forall_mem_map

private theorem known_quoted :
    ∀ name ∈ Module.known, Text.trimChar '"' (TokenStream.writtenAs .string name) = name := by
  decide +kernel

/-- A module that is added is named by a new statement, the last of all. -/
theorem Stated.addImport (stated : file.Stated) {added : Bool}
    (done : Succeeds (FileEdit.addImport name) file added file') : file'.Stated := by
  have ordered := FileEdit.addImport_preserves name file added file' stated.ordered done
  rcases FileEdit.addImport_done done with rfl |
    ⟨pool, imported, keyword, word, stop, tokens₁, tokens₂, tokens₃, absent, rfl, known, inserted₁,
      inserted₂, inserted₃, rfl⟩
  · exact stated
  have tidy := stated.ordered.listed.tidy
  obtain ⟨ahead, behind, split, place, plain, none⟩ := stated.place
  obtain ⟨tidy₁, view₁, _⟩ := TokenEdit.insertAt_spots tidy inserted₁ split place
  obtain ⟨tidy₂, view₂, _⟩ := TokenEdit.insertAt_spots tidy₁ inserted₂ view₁ place
  obtain ⟨_, view₃, _⟩ := TokenEdit.insertAt_spots tidy₂ inserted₃ view₂ place
  obtain ⟨_, grows₁⟩ := TokenEdit.insertAt_stored tidy inserted₁
  obtain ⟨stored, grows₂⟩ := TokenEdit.insertAt_stored tidy₁ inserted₂
  obtain ⟨_, grows₃⟩ := TokenEdit.insertAt_stored tidy₂ inserted₃
  have grows : Grows file.tokens tokens₃ := (grows₁.trans grows₂).trans grows₃
  have view : tokens₃.spots = ahead ++ [(keyword, .kwImport, false)] ++ [(word, .string, false)] ++
      [(stop, .newLine, false)] ++ behind :=
    view₃
  refine ⟨ordered, alone_iff.mpr fun other member => ?_, ?_, List.forall_mem_append.mpr ⟨fun i member => ?_, ?_⟩, ?_⟩
  · have listed := List.mem_of_mem_filter member
    have old : other ∈ ahead ++ behind → other.2.1 ≠ .kwInclude := fun inside =>
      alone_iff.mp stated.alone other (List.mem_filter.mpr ⟨split ▸ inside, (List.mem_filter.mp member).2⟩)
    rw [view] at listed
    simp only [List.mem_append, List.mem_singleton] at listed old
    rcases listed with (((here | rfl) | rfl) | rfl) | here
    · exact old (.inl here)
    · exact TokenKind.noConfusion
    · exact TokenKind.noConfusion
    · exact TokenKind.noConfusion
    · exact old (.inr here)
  · rw [TokenStream.statements_insert split view plain none, stated.statements, List.map_append]
    rfl
  · obtain ⟨a, tells, kind, named⟩ := stated.named i member
    exact ⟨a, grows.tells tells, kind, named⟩
  · exact List.forall_mem_singleton.mpr ⟨_, ⟨grows₃ _ _ stored, rfl⟩, rfl, known_quoted _ known⟩
  · rw [List.map_append]
    refine List.Nodup.append stated.unique (List.nodup_singleton _) (List.disjoint_singleton.mpr fun listed => ?_)
    obtain ⟨i, member, same⟩ := List.mem_map.mp listed
    simp [RuleFile.hasImport, Import.moduleName] at absent
    exact absent i member same

namespace Line

variable {s : TokenStream} {ahead middle behind front back : List Spot} {first second : Spot}

theorem unique (tidy : s.Tidy) {spot other : Spot} (one : spot ∈ s.spots) (two : other ∈ s.spots)
    (same : spot.1 = other.1) : spot = other :=
  List.inj_on_of_nodup_map tidy.nodup one two same

/-- A range up to the end of a line ends with the last word of the line, or with the line break behind it. -/
theorem ends (tidy : s.Tidy) (split : s.spots = ahead ++ (middle ++ behind)) (inside : second ∈ s.spots)
    (free : second.2.2 = false) (start : ∃ spot, middle.head? = some spot ∧ spot.2.1 ≠ .newLine)
    (ends : middle.getLast?.map (·.1) = some (s.lineEnd second.1)) : ∃ most tail, middle = most ++ second :: tail ∧
    wordsOf tail = [] := by
  obtain ⟨final, last, named⟩ := Option.map_eq_some_iff.mp ends
  obtain ⟨most, rfl⟩ := List.getLast?_eq_some_iff.mp last
  obtain ⟨left, right, around⟩ := List.append_of_mem inside
  rcases tidy.lineEnd_spots around free with same | ⟨next, rest, rfl, same, broken, _⟩
  · obtain rfl : final = second := unique tidy (by simp [split]) inside (named.trans same)
    exact ⟨most, [], rfl, rfl⟩
  · have whole : (left ++ [second]) ++ next :: rest = (ahead ++ most) ++ final :: behind := by
      rw [split] at around
      simpa using around.symm
    obtain ⟨before, rfl, _⟩ := split_unique (by simpa [around] using tidy.nodup) whole (named.trans same).symm
    rcases List.eq_nil_or_concat most with rfl | ⟨fewer, other, rfl⟩
    · obtain ⟨spot, begins, word⟩ := start
      obtain rfl : next = spot := Option.some.inj begins
      exact absurd broken word
    · rw [List.concat_eq_append, ← List.append_assoc] at before
      obtain rfl := (List.append_singleton_inj.mp before).2
      exact ⟨fewer, [next], by simp, by simp [wordsOf, TokenKind.isTrivia, broken]⟩

/-- Between two words next to each other, and up to the end of the line, there are no others. -/
theorem words (tidy : s.Tidy) (split : s.spots = ahead ++ (middle ++ behind))
    (words : s.words = front ++ first :: second :: back) (free : second.2.2 = false)
    (begins : middle.head?.map (·.1) = some first.1)
    (ending : middle.getLast?.map (·.1) = some (s.lineEnd second.1)) : wordsOf middle = [first, second] ∧
    wordsOf ahead = front := by
  have listed {spot : Spot} (member : spot ∈ s.words) : spot ∈ s.spots ∧ spot.2.1.isTrivia = false := by
    simpa using List.mem_filter.mp member
  obtain ⟨first_in, plain⟩ := @listed first (by simp [words])
  obtain ⟨second_in, plain'⟩ := @listed second (by simp [words])
  have nodup := tidy.words_nodup
  have parts : s.words = wordsOf ahead ++ (wordsOf middle ++ wordsOf behind) := by
    rw [TokenStream.words, split, TokenStream.wordsOf_append, TokenStream.wordsOf_append]
  obtain ⟨spot, begun, named⟩ := Option.map_eq_some_iff.mp begins
  obtain ⟨mid, range⟩ := List.head?_eq_some_iff.mp begun
  obtain rfl : spot = first := unique tidy (by simp [split, range]) first_in named
  have start : wordsOf middle = spot :: wordsOf mid := range ▸ List.filter_cons_of_pos (by simp [plain])
  obtain ⟨rfl, _⟩ : wordsOf ahead = front ∧ _ := split_unique (by simpa [parts, start] using nodup)
    (show wordsOf ahead ++ spot :: (wordsOf mid ++ wordsOf behind) =
      _ by simpa [start] using parts.symm.trans words) rfl
  obtain ⟨most, tail, rfl, trivia⟩ :=
    ends tidy split second_in free ⟨spot, begun, fun broken => by simp [broken, TokenKind.isTrivia] at plain⟩ ending
  have ended : wordsOf (most ++ second :: tail) = wordsOf most ++ [second] := by
    have one : wordsOf (second :: tail) = second :: wordsOf tail := List.filter_cons_of_pos (by simp [plain'])
    rw [TokenStream.wordsOf_append, one, trivia]
  have whole : (wordsOf ahead ++ wordsOf most) ++ second :: wordsOf behind = (wordsOf ahead ++ [spot]) ++
      second :: back := by
    rw [ended, words] at parts
    simpa using parts.symm
  obtain ⟨before, _⟩ := split_unique (by simpa [parts, ended] using nodup) whole rfl
  rw [ended, List.append_cancel_left before]
  exact ⟨rfl, rfl⟩

end Line

/-- With a module that is removed goes the statement that names it. -/
theorem Stated.removeImport (stated : file.Stated) {removed : Bool}
    (done : Succeeds (FileEdit.removeImport name) file removed file') : file'.Stated := by
  have ordered := FileEdit.removeImport_preserves name file removed file' stated.ordered done
  rcases FileEdit.removeImport_done done with rfl | ⟨index, inside, tokens, erased, rfl⟩
  · exact stated
  have tidy := stated.ordered.listed.tidy
  have member := List.getElem_mem inside
  obtain ⟨front, first, second, back, words, keyword, word, begins, string⟩ := stated.statement member
  have row : [file.imports[index].keyword, file.imports[index].name].Sublist file.tokens.code :=
    stated.ordered.listed.sublist (List.mem_append_left _ (List.mem_map_of_mem member))
  have done := TokenEdit.succeeds_erase erased.get_bind
  obtain ⟨_, _, _, ahead, middle, behind, split, view, start, finish⟩ := tidy.erase_spots done
  obtain ⟨free, _⟩ := tidy.behind_stop (.inr rfl)
    (show ([file.imports[index].keyword] ++ file.imports[index].name :: []).Sublist _ from row)
  have unowned : second.2.2 = false := by
    obtain ⟨kind, _, here⟩ := TokenStream.mem_codeOf.mp (row.subset (by simp : file.imports[index].name ∈ _))
    have there : second ∈ file.tokens.spots := List.mem_of_mem_filter (show second ∈ file.tokens.words by simp [words])
    rw [List.inj_on_of_nodup_map tidy.nodup there here word]
  obtain ⟨line, rfl⟩ := Line.words tidy split words unowned (by rw [start, keyword]) (by rw [finish free, word])
  have goes : beginsImport second = false := by simp [beginsImport, string]
  have plain : ∀ other ∈ (wordsOf ahead).getLast?, beginsImport other = false :=
    fun other last => Bool.eq_false_iff.mpr fun leads => by
    obtain ⟨most, same⟩ := List.getLast?_eq_some_iff.mp last
    have listed : (other, some first) ∈ followed beginsImport file.tokens.words :=
      mem_followed.mpr ⟨leads, most, second :: back, by simp [words, same]⟩
    have told : (other.1, some first.1) ∈ file.tokens.statements := List.mem_map.mpr ⟨_, listed, rfl⟩
    rw [stated.statements] at told
    obtain ⟨i, known, same⟩ := List.mem_map.mp told
    obtain ⟨_, _, named, _, words', _, name, _, string⟩ := stated.statement known
    have here : first ∈ file.tokens.words := by simp [words]
    have there : named ∈ file.tokens.words := by simp [words']
    obtain rfl : named = first := List.inj_on_of_nodup_map tidy.words_nodup there here
      (name.trans (Option.some.inj (Prod.mk.inj same).2))
    simp [beginsImport, string] at begins
  obtain ⟨before, after⟩ := TokenStream.statements_erase split view line begins goes plain
  refine ⟨ordered, alone_iff.mpr fun other member => ?_, ?_, fun i member => ?_, ?_⟩
  · have listed := List.mem_of_mem_filter member
    have old : other ∈ file.tokens.spots := by
      rw [view] at listed
      simp only [split, List.mem_append] at listed ⊢
      tauto
    exact alone_iff.mp stated.alone other (List.mem_filter.mpr ⟨old, (List.mem_filter.mp member).2⟩)
  · rw [after, ← List.eraseIdx_map]
    have nodup := TokenStream.statements_nodup tidy
    rw [stated.statements] at before nodup
    have place : index < (file.imports.map fun i => (i.keyword, some i.name)).length := by simpa using inside
    rw [← nodup.erase_getElem index place, List.getElem_map, ← keyword, ← word]
    rw [before] at nodup ⊢
    have new := (List.nodup_middle.mp nodup)
    rw [List.erase_append_right _ fun known => (List.nodup_cons.mp new).1 (List.mem_append_left _ known),
      List.erase_cons_head]
  · obtain ⟨a, tells, kind, named⟩ := stated.named i (List.mem_of_mem_eraseIdx member)
    have left := ordered.listed.sublist (List.mem_append_left _ (List.mem_map_of_mem member))
    exact ⟨a, tidy.erase_spares done left.subset i.name (by simp [Import.row]) a tells, kind, named⟩
  · exact stated.unique.sublist ((List.eraseIdx_sublist _ _).map _)

/-- Imports were added and removed, each time with success. -/
inductive ImportsEdited (file : RuleFile) : RuleFile → Prop
  | none : file.ImportsEdited file
  | added {before after : RuleFile} {name : String} {added : Bool} (earlier : file.ImportsEdited before)
      (done : before.edit (FileEdit.addImport name) = (.ok added, after)) : file.ImportsEdited after
  | removed {before after : RuleFile} {name : String} {removed : Bool} (earlier : file.ImportsEdited before)
      (done : before.edit (FileEdit.removeImport name) = (.ok removed, after)) : file.ImportsEdited after

theorem Stated.edited (stated : file.Stated) (edited : file.ImportsEdited file') : file'.Stated := by
  induction edited with
  | none => exact stated
  | added _ done ih => exact ih.addImport done
  | removed _ done ih => exact ih.removeImport done

private theorem importedNames_cons (word : TokenKind × String) (words : List (TokenKind × String)) :
    importedNames (word :: words) =
      (if word.1 == .kwImport then (words.head?.map fun next => Text.trimChar '"' next.2).toList else []) ++
        importedNames words := by
  rw [importedNames, importedNames, followed]
  split_ifs
  · cases words.head? <;> rfl
  · rfl

private theorem importedNames_found {words : List (TokenKind × String)} {found : List Token}
    (renders : List.Forall₂ Renders words found) :
    importedNames words = importedNames (found.map fun a => (a.kind, Grammar.shown a)) := by
  induction renders with
  | nil => rfl
  | @cons word a words found one more ih =>
    have names : words.head?.map (fun next => Text.trimChar '"' next.2) =
        (found.map fun a => (a.kind, Grammar.shown a)).head?.map fun next => Text.trimChar '"' next.2 := by
      cases more with
      | nil => rfl
      | cons other _ => exact congrArg (fun text => some (Text.trimChar '"' text)) other.text
    rw [List.map_cons, importedNames_cons, importedNames_cons, ih, names, one.directive .kwImport (by simp)]

/-- A text of a legible file that is formatted has the words of the file, so what is read from it has the
same modules. -/
theorem Stated.formatted_imports (stated : file.Stated) (legible : file.tokens.isLegible = true) {style : LayoutStyle}
    (blank : style.Blank) {expand : Bool} {settings : Settings} {tree : FileTree} {id : ChainId} {again : RuleFile}
    (done : ofSource settings tree id (Bytes.ofText (file.formatted style expand)) = .ok again) :
    again.imports.map (·.moduleName) = file.imports.map (·.moduleName) := by
  obtain ⟨found, lexed, renders⟩ :=
    stated.ordered.listed.tidy.sound.formatted_words legible blank expand none
  have alone : ∀ a ∈ found, a.kind ≠ .kwInclude := by
    intro a member includes
    have listed : a ∈ found.filter fun a => !a.kind.isTrivia :=
      List.mem_filter.mpr ⟨member, by simp [includes, TokenKind.isTrivia]⟩
    obtain ⟨word, inside, same⟩ := mem_of_forall₂ renders listed
    have directive := same.directive .kwInclude (by simp)
    rw [includes] at directive
    exact stated.alone word inside (by simpa using directive)
  rw [ofSource_imports done lexed alone, ← importedNames_found renders, stated.names, eraseDups_nodup _ stated.unique]

/-- If no statement of a file without included files names a module again, then the statements of its tokens
name the modules of the file, in order, whatever imports are added and removed; and a file that is read from
these words, or from a formatted text that is legible, has the same modules. -/
theorem Read.edits_state_imports (read : file.Read) (alone : file.Alone)
    (apart : (importedNames file.tokens.spelling).Nodup)
    (edited : file.ImportsEdited file') :
    importedNames file'.tokens.spelling = file'.imports.map (·.moduleName) ∧
      (∀ again : RuleFile, again.Read → again.tokens.spelling = file'.tokens.spelling →
        again.imports.map (·.moduleName) = file'.imports.map (·.moduleName)) ∧
      ∀ {style : LayoutStyle} {expand settings tree id} {again : RuleFile}, file'.tokens.isLegible = true →
        style.Blank → RuleFile.ofSource settings tree id (Bytes.ofText (file'.formatted style expand)) = .ok again →
        again.imports.map (·.moduleName) = file'.imports.map (·.moduleName) := by
  have stated := (read.stated alone apart).edited edited
  refine ⟨stated.names, fun again read' same => ?_, fun legible blank done =>
    stated.formatted_imports legible blank done⟩
  have alone' : again.Alone := fun word member => stated.alone word (same ▸ member)
  obtain ⟨_, _, _, _, names, _⟩ := read'.told alone'
  rw [names, same, stated.names, eraseDups_nodup _ stated.unique]

/-- A file with two imports, and what its text is when one was removed and another added. -/
def importedContent : Bytes := Bytes.ofText "import \"pe\" import \"elf\" rule a \x7b condition: true \x7d"
def reimportedContent : Bytes := Bytes.ofText "import \"elf\" import \"math\" rule a \x7b condition: true \x7d"

private theorem imported_run : yields (RuleFile.ofSource {} {} 0 importedContent) (fun file =>
    yields (RuleFile.ofSource {} {} 0 reimportedContent) fun again =>
    leaves (file.edit (FileEdit.removeImport "pe")) fun between =>
    leaves (between.edit (FileEdit.addImport "math")) fun file' =>
    yields (RuleFile.ofSource {} {} 0 (Bytes.ofText (file'.formatted {} false))) fun _ =>
    decide (∀ word ∈ file.tokens.spelling, word.1 ≠ .kwInclude) && decide (importedNames file.tokens.spelling).Nodup &&
      again.tokens.spelling == file'.tokens.spelling && again.imports.map (·.moduleName) == ["elf", "math"] &&
      file'.tokens.isLegible) = true := by
  decide +kernel

theorem edits_state_imports_again : ∃ file file' again laid : RuleFile, RuleFile.ofSource {}
    {} 0 importedContent = .ok file ∧ file.ImportsEdited file' ∧ RuleFile.ofSource {}
    {} 0 reimportedContent = .ok again ∧ file.Alone ∧ (importedNames file.tokens.spelling).Nodup ∧
    again.tokens.spelling = file'.tokens.spelling ∧ file'.imports.map (·.moduleName) = ["elf", "math"] ∧
    importedNames file'.tokens.spelling = ["elf", "math"] ∧ file'.tokens.isLegible = true ∧
    RuleFile.ofSource {} {} 0 (Bytes.ofText (file'.formatted {} false)) = .ok laid ∧
    laid.imports.map (·.moduleName) = ["elf", "math"] := by
  obtain ⟨file, done, run⟩ := yields_iff.mp imported_run
  obtain ⟨again, done', run⟩ := yields_iff.mp run
  obtain ⟨_, between, removed, run⟩ := leaves_iff.mp run
  obtain ⟨_, file', added, run⟩ := leaves_iff.mp run
  obtain ⟨laid, reread, run⟩ := yields_iff.mp run
  simp only [Bool.and_eq_true, decide_eq_true_eq, beq_iff_eq] at run
  obtain ⟨⟨⟨⟨alone, apart⟩, same⟩, modules⟩, legible⟩ := run
  have edited : file.ImportsEdited file' := .added (.removed .none removed) added
  obtain ⟨names, reads, layouts⟩ := Read.edits_state_imports (.ofSource done) alone apart edited
  have modules' := (reads again (.ofSource done') same).symm.trans modules
  have blank : ({} : LayoutStyle).Blank := fun c tab => .inr (List.mem_singleton.mp tab)
  exact ⟨file, file', again, laid, done, edited, done', alone, apart, same, modules', names.trans modules', legible,
    reread, (layouts legible blank reread).trans modules'⟩

end RuleFile

end YaraRules
