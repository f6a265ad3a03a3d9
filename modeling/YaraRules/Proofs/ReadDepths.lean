import YaraRules.Proofs.ReadInclusions

/-! How deep reading goes. Files may include one another in any way, but a file that is opened
is none of those that are being read, and an item takes a token at least. So files are
never nested deeper than there are files, and no source has more items than tokens. -/

namespace YaraRules.Grammar

variable {l : Ledger} {s between inner s' : State} {pieces : List Piece} {d : Directive} {place : FileTree.Place}
  {content : Bytes} {source : Source}

/-! ### Files that are not being read -/

/-- Files of the tree that are not being read. -/
def State.shut (s : State) : List (List String × Bytes) := s.tree.files.filter fun file => .inside file.1 ∉ s.opened

theorem Kept.shut (kept : Kept s s') : s'.shut = s.shut := by
  simp only [State.shut, kept.tree, kept.opened]

theorem State.Opens.listed (opens : s.Opens d place content source) :
    ∃ names, place = .inside names ∧ (names, content) ∈ s.tree.files := by
  have read := opens.read
  unfold FileTree.read at read
  split_ifs at read
  have found : s.tree.contentAt place = .ok content := by simpa [opens.located, bind, Except.bind] using read
  cases place with
  | outside => cases found
  | inside names =>
    simp only [FileTree.contentAt] at found
    split at found
    next stored =>
      cases found
      obtain ⟨before, after, split, _⟩ := List.lookup_eq_some_iff.mp stored
      exact ⟨names, rfl, by simp [split]⟩
    next => cases found

/-- A file that is opened was not being read before. -/
theorem State.Opens.fewer (opens : s.Opens d place content source) :
    (s.enter source place).shut.length < s.shut.length := by
  obtain ⟨names, rfl, listed⟩ := opens.listed
  have split : (s.enter source (.inside names)).shut = s.shut.filter fun file =>
      .inside file.1 ≠ FileTree.Place.inside names := by
    simp [State.shut, State.enter, List.filter_filter]
  have known : (names, content) ∈ s.shut := List.mem_filter.mpr ⟨listed, by simpa using opens.shut⟩
  rw [split]
  exact List.length_filter_lt_length_iff_exists.mpr ⟨_, known, by simp⟩

/-! ### Directives -/

theorem bind_ok {α β : Type} {step : Parse α} {next : α → Parse β} {a : α} (run : step s = .ok (a, between)) :
    (step >>= next) s = next a between := by
  show (step s >>= fun result => next result.1 result.2) = _
  rw [run]
  rfl

private theorem bind_error {α β : Type} {step : Parse α} {next : α → Parse β} {e : ParseError}
    (run : step s = .error e) : (step >>= next) s = .error e := by
  show (step s >>= fun result => next result.1 result.2) = _
  rw [run]
  rfl

/-- What stands next in a source comes to, whatever reads the files that it includes and with any number of
items behind it. -/
inductive Turn (s : State) : Prop
  /-- There is a problem, but no cycle. -/
  | failed (e : ParseError) (tame : ∀ written, e.problem ≠ .includeCycle written)
    (run : ∀ reader bound, items (includeDirective reader) (bound + 1) s = .error e)
  /-- A directive leads to a file that is being read. -/
  | cycle (d : Directive) (between : State) (place : FileTree.Place) (e : ParseError)
      (found : directive s = .ok (d, between))
    (located : between.tree.locate d.path = .ok place) (opened : place ∈ between.opened)
    (problem : e.problem = .includeCycle d.written)
    (run : ∀ reader bound, items (includeDirective reader) (bound + 1) s = .error e)
  /-- An import, a rule or a directive whose file is passed over. -/
  | passed (between : State) (pieces : List Piece) (course : Course s pieces between) (passed : Passed s between)
    (run : ∀ reader bound, items (includeDirective reader) (bound + 1) s =
    items (includeDirective reader) bound between)
  /-- A file is opened. -/
  | opened (d : Directive) (between : State) (place : FileTree.Place) (content : Bytes) (source : Source)
    (found : directive s = .ok (d, between)) (opens : between.Opens d place content source)
    (run : ∀ reader bound, items (includeDirective reader) (bound + 1) s =
      (reader (between.enter source place) >>= fun result =>
      items (includeDirective reader) bound (between.rejoin d.keyword result.2)))

/-! ### One item -/

/-- The item that starts with a token of a kind. -/
def itemAt (include_ : Parse Unit) : TokenKind → Parse Unit
  | .kwImport => importDirective
  | .kwInclude => include_
  | .kwRule | .kwPrivate | .kwGlobal => do
    let rule ← rule
    modify fun s => { s with rules := s.rules ++ [rule] }
  | _ => unexpected "import, include or rule"

private theorem items_succ (include_ : Parse Unit) (bound : Nat) : items include_ (bound + 1) = (do
    match ← peek? with
    | none => return ()
    | some kind =>
      itemAt include_ kind
      items include_ bound) := by
  refine congrArg (peek? >>= ·) (funext fun next => ?_)
  cases next with
  | none => rfl
  | some kind => cases kind <;> first | rfl | exact (bind_assoc ..).symm

private theorem items_run {kind : TokenKind} (known : peek? s = .ok (some kind, s)) (include_ : Parse Unit)
    (bound : Nat) : items include_ (bound + 1) s = (itemAt include_ kind >>= fun _ => items include_ bound) s := by
  rw [items_succ]
  exact bind_ok known

theorem Poised.peek (poised : Poised l s) (more : s.source.rest ≠ []) : ∃ kind, peek? s = .ok (some kind, s) := by
  obtain ⟨h, rest, split⟩ := List.exists_cons_of_ne_nil more
  obtain ⟨scene, front, place⟩ := poised.place
  obtain ⟨a, stored, _⟩ := place.tidy.get?_of_code (place.listed.subset (by simp [split] : h ∈ _))
  refine ⟨a.kind, ?_⟩
  show Except.ok ((s.source.rest[0]?.bind s.source.tokens.get?).map (·.kind), s) = _
  simp [split, stored]

private theorem importDirective_tame {e : ParseError} (failed : importDirective s = .error e) :
    ∀ written, e.problem ≠ .includeCycle written := by
  rcases bind_failed failed with early | ⟨keyword, _, _, failed⟩
  · exact (@expect_calm [] _).tame _ _ early
  rcases bind_failed failed with early | ⟨name, _, _, failed⟩
  · exact (@expect_calm [] _).tame _ _ early
  rcases bind_failed failed with early | ⟨text, _, _, failed⟩
  · exact (@textOf_calm [] _).tame _ _ early
  rcases bind_failed failed with early | ⟨t, _, _, failed⟩
  · cases early
  dsimp only at failed
  cases loaded : (t.pool.load (Text.trimChar '"' text) t.settings.features).1 with
  | some found =>
    simp only [loaded] at failed
    cases failed
  | none =>
    simp only [loaded] at failed
    exact (fail_refuses name (by simp)).tame failed

private theorem itemAt_cases (kind : TokenKind) :
    (∀ reader, itemAt reader kind = importDirective) ∨ (∀ reader, itemAt reader kind = reader) ∨
    (∀ reader, itemAt reader kind = do
      let rule ← rule
      modify fun s => { s with rules := s.rules ++ [rule] }) ∨
    ∀ reader, itemAt reader kind = unexpected "import, include or rule" := by
  cases kind
  case kwImport => exact .inl fun _ => rfl
  case kwInclude => exact .inr (.inl fun _ => rfl)
  case kwRule | kwPrivate | kwGlobal => exact .inr (.inr (.inl fun _ => rfl))
  all_goals exact .inr (.inr (.inr fun _ => rfl))

private theorem include_bind (reader next : Parse Unit) :
    (includeDirective reader >>= fun _ => next) = directive >>= fun d => follow reader d >>= fun _ => next := by
  rw [includeDirective_eq, bind_assoc]

theorem Poised.turn (poised : Poised l s) (more : s.source.rest ≠ []) : Turn s := by
  obtain ⟨kind, known⟩ := poised.peek more
  rcases itemAt_cases kind with item | item | item | item
  · have run (reader : Parse Unit) (bound : Nat) :=
      (items_run known (includeDirective reader) bound).trans (by rw [item])
    cases found : importDirective s with
    | error e =>
      exact .failed e (importDirective_tame found) fun reader bound => (run reader bound).trans (bind_error found)
    | ok result =>
      exact .passed result.2 _ (.imported found (.done _)) (poised.import_passed found) fun reader bound =>
        (run reader bound).trans (bind_ok found)
  · have run (reader : Parse Unit) (bound : Nat) := (items_run known (includeDirective reader) bound).trans (by
      rw [item, include_bind])
    cases found : Grammar.directive s with
    | error e =>
      exact .failed e (directive_calm.tame s e found) fun reader bound => (run reader bound).trans (bind_error found)
    | ok result =>
      obtain ⟨d, between⟩ := result
      have run (reader : Parse Unit) (bound : Nat) := (run reader bound).trans (bind_ok found)
      rcases follow_cases d between with ⟨e, failed, tame, _⟩ | ⟨e, place, failed, problem, located, opened⟩ |
        ⟨place, passed, located, shut, again⟩ | ⟨place, content, source, opens, entered⟩
      · exact .failed e tame fun reader bound => (run reader bound).trans (bind_error (failed reader))
      · exact .cycle d between place e found located opened problem fun reader bound =>
          (run reader bound).trans (bind_error (failed reader))
      · exact .passed between _ (.skipped found located shut again (.done _)) (poised.directive_passed found)
          fun reader bound =>
          (run reader bound).trans (bind_ok (passed reader))
      · refine .opened d between place content source found opens fun reader bound => (run reader bound).trans ?_
        show (follow reader d between >>= fun result => items (includeDirective reader) bound result.2) = _
        rw [entered reader]
        cases reader (between.enter source place) <;> rfl
  · have run (reader : Parse Unit) (bound : Nat) :=
      (items_run known (includeDirective reader) bound).trans (by rw [item, bind_assoc])
    cases found : rule s with
    | error e =>
      obtain ⟨read, link⟩ := poised.accounted
      exact .failed e (rule_calm.tame s e found link) fun reader bound => (run reader bound).trans (bind_error found)
    | ok result =>
      exact .passed _ _ (.ruled found (.done _)) (poised.rule_passed found) fun reader bound =>
        (run reader bound).trans (bind_ok found)
  · obtain ⟨e, failed, tame⟩ := unexpected_refuses (α := Unit) "import, include or rule" s
    refine .failed e tame fun reader bound => (items_run known (includeDirective reader) bound).trans ?_
    rw [item]
    exact bind_error failed

/-- The file around an included one is read on where the directive ended. -/
theorem Poised.back (poised : Poised l s) (found : Grammar.directive s = .ok (d, between))
    (opens : between.Opens d place content source)
    (inside : Course (between.enter source place) pieces inner) : Poised l (between.rejoin d.keyword inner) ∧
      Kept s (between.rejoin d.keyword inner) ∧ (between.rejoin d.keyword inner).source.rest.length <
      s.source.rest.length := by
  have passed := poised.directive_passed found
  have opening := poised.opening found opens
  obtain ⟨forth, poised'⟩ := inside.forth opening.inner
  exact ⟨(opening.rejoin inside forth poised').2.2,
    passed.kept.trans (opening.kept (inside.tracked opening.inner).1 poised'), passed.shorter⟩

/-! ### Bounds -/

/-- What was read without a problem is a course of items. -/
def Courses (reader : Parse Unit) : Prop := ∀ s s', reader s = .ok ((), s') → ∃ pieces, Course s pieces s'

theorem itemsWithin_sound (depth : Nat) : Courses (itemsWithin depth) := fun _ _ => itemsWithin_course

theorem items_ended (ended : s.source.rest = []) (include_ : Parse Unit) (bound : Nat) :
    items include_ bound s = .ok ((), s) := by
  cases bound with
  | zero => rfl
  | succ bound =>
    have known : peek? s = .ok (none, s) := by
      show Except.ok ((s.source.rest[0]?.bind s.source.tokens.get?).map (·.kind), s) = _
      simp [ended]
    rw [items_succ]
    exact bind_ok known

/-- Items are the same to readers that read files in the same way, and no bound as large as the number of
tokens matters. -/
theorem items_alike {first second : Parse Unit} {most : Nat} (courses : Courses first)
    (alike : ∀ l s, Poised l s → s.shut.length < most → first s = second s) (bound : Nat) : ∀ bound' {l s}, Poised l s →
      s.shut.length ≤ most → s.source.rest.length ≤ bound → s.source.rest.length ≤ bound' →
      items (includeDirective first) bound s = items (includeDirective second) bound' s := by
  induction bound with
  | zero =>
    intro bound' l s _ _ enough _
    have ended := List.length_eq_zero_iff.mp (Nat.le_zero.mp enough)
    rw [items_ended ended, items_ended ended]
  | succ bound ih =>
    intro bound' l s poised few enough enough'
    by_cases more : s.source.rest = []
    · rw [items_ended more, items_ended more]
    have some := List.length_pos_iff.mpr more
    obtain ⟨bound', rfl⟩ : ∃ n, bound' = n + 1 := ⟨bound' - 1, by omega⟩
    rcases poised.turn more with ⟨e, _, run⟩ | ⟨_, _, _, e, _, _, _, _, run⟩ | ⟨between, pieces, course, passed, run⟩ |
      ⟨d, between, place, content, source, found, opens, run⟩
    · rw [run, run]
    · rw [run, run]
    · have shorter := passed.shorter
      rw [run, run]
      refine ih bound' (course.forth poised).2 ?_ (by omega) (by omega)
      rw [passed.kept.shut]
      exact few
    · have kept := (poised.directive_passed found).kept
      have fewer := opens.fewer
      rw [kept.shut] at fewer
      rw [run, run, ← alike _ _ (poised.opening found opens).inner (Nat.lt_of_lt_of_le fewer few)]
      cases inside : first (between.enter source place) with
      | error e => simp only [bind, Except.bind]
      | ok result =>
        obtain ⟨⟨⟩, inner⟩ := result
        obtain ⟨pieces, course⟩ := courses _ inner inside
        obtain ⟨poised', kept, shorter⟩ := poised.back found opens course
        simp only [bind, Except.bind]
        refine ih bound' poised' ?_ (by omega) (by omega)
        rw [kept.shut]
        exact few

/-- Reads a source and the files nested in it down to a depth. Deeper ones are read by `beyond`, and the items of a
source may be `spare` more than its tokens. -/
def itemsOver (beyond : Parse Unit) (spare : Nat) : Nat → Parse Unit
  | 0 => beyond
  | depth + 1 => do items (includeDirective (itemsOver beyond spare depth)) ((← remaining) + spare)

/-- However deep files may be nested, and whatever reads those that are nested deeper, a source reads the same
as long as the files that are not being read are no more than that. -/
theorem itemsOver_eq (beyond : Parse Unit) (spare : Nat) (most : Nat) : ∀ depth {l s}, Poised l s →
    s.shut.length < depth → s.shut.length ≤ most → itemsOver beyond spare depth s = itemsWithin most s := by
  have items_eq {reader : Parse Unit} {depth : Nat} {l : Ledger} {s : State} (courses : Courses reader)
    (poised : Poised l s)
      (alike : ∀ l s', Poised l s' → s'.shut.length < s.shut.length → reader s' = itemsOver beyond spare depth s') :
      itemsOver beyond spare (depth + 1) s = items (includeDirective reader) s.source.rest.length s :=
    (items_alike courses alike _ _ poised (Nat.le_refl _) (Nat.le_refl _) (Nat.le_add_right _ _)).symm
  induction most with
  | zero =>
    intro depth l s poised deep few
    obtain ⟨depth, rfl⟩ : ∃ n, depth = n + 1 := ⟨depth - 1, by omega⟩
    exact items_eq (fun s s' done => ⟨[], by cases done; exact .done s⟩) poised fun _ _ _ fewer =>
      absurd fewer (by omega)
  | succ most ih =>
    intro depth l s poised deep few
    obtain ⟨depth, rfl⟩ : ∃ n, depth = n + 1 := ⟨depth - 1, by omega⟩
    exact items_eq (itemsWithin_sound most) poised fun _ _ poised' fewer =>
      (ih depth poised' (by omega) (by omega)).symm

end YaraRules.Grammar
