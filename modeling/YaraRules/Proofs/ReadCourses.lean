import YaraRules.Grammar.File
import YaraRules.Proofs.ReadRows

/-! The course that the reading of a file takes: its items one after the other, and those of
an included file where the directive stands. What holds of every file that is read is
proved along its course. -/

namespace YaraRules

/-! ### Errors of the lexer -/

namespace Lexer

private theorem makeToken_tame {kind : TokenKind} {bytes : Bytes} {location : Location} {e : ParseError}
    (failed : makeToken kind bytes location = .error e) : ∀ written, e.problem ≠ .includeCycle written := by
  unfold makeToken at failed
  split at failed
  · cases failed
  · split at failed <;> cases failed
    simp
  all_goals cases failed

private theorem tokensFrom_tame {path : Option String} {e : ParseError} :
    ∀ (fuel : Nat) (s : State), tokensFrom path fuel s = .error e →
    ∀ written, e.problem ≠ .includeCycle written
  | 0, _, failed => by cases failed
  | fuel + 1, s, failed => by
    unfold tokensFrom at failed
    split_ifs at failed
    split at failed
    next s' _ => exact tokensFrom_tame fuel s' failed
    next word s' _ =>
      cases rest : tokensFrom path fuel s' with
      | error e' =>
        obtain rfl : e' = e := by simpa [rest, bind, Except.bind] using failed
        exact tokensFrom_tame fuel s' rest
      | ok more => simp [rest, bind, Except.bind, pure, Except.pure] at failed
    next late =>
      cases failed
      unfold step at late
      split at late
      · cases late
      · dsimp only at late
        split at late
        · cases late
        next made =>
          cases late
          exact makeToken_tame made
      · cases late
        simp

end Lexer

namespace Grammar

theorem sourceOf_tame {id : ChainId} {path : Option String} {content : Bytes} {e : ParseError}
    (failed : sourceOf id path content = .error e) : ∀ written, e.problem ≠ .includeCycle written := by
  unfold sourceOf at failed
  cases found : Lexer.tokens path content with
  | error e' =>
    obtain rfl : e' = e := by simpa [found, bind, Except.bind] using failed
    exact Lexer.tokensFrom_tame _ _ found
  | ok words => simp [found, bind, Except.bind, pure, Except.pure] at failed

/-! ### Directives -/

/-- An include directive and the path that it leads to from the file around it. -/
structure Directive where
  keyword : Handle
  token : Handle
  /-- The path as it is written. -/
  written : String
  path : String

/-- Where a path leads that is written in a file. -/
def resolvePath (outer : Option String) (written : String) : String :=
  match outer with
  | some outer => pathJoin (pathParent outer) written
  | none => written

/-- The part of an include directive that stands in the file around it. -/
def directive : Parse Directive := do
  let keyword ← expect .kwInclude
  let token ← expect .string
  let written := Text.trimChar '"' (← textOf token)
  return ⟨keyword, token, written, resolvePath (← get).source.path written⟩

/-- What a directive does once it was read. -/
def follow (items : Parse Unit) (d : Directive) : Parse Unit := do
  let s ← get
  match s.tree.locate d.path with
  | .error fault => fail d.token (.includeFailed d.written fault.message)
  | .ok place =>
    if s.opened.contains place then fail d.token (.includeCycle d.written)
    else if s.settings.mode == .once && s.included.contains place then return ()
    else
      match s.tree.read d.path with
      | .error fault => fail d.token (.includeFailed d.written fault.message)
      | .ok content => readIncluded items d.keyword place d.path content

theorem includeDirective_eq (items : Parse Unit) : includeDirective items = directive >>= follow items := by
  simp only [includeDirective, directive, follow, resolvePath, bind_assoc, pure_bind]
  rfl

/-- An included file is about to be read. -/
def State.enter (s : State) (source : Source) (place : FileTree.Place) : State :=
  { s with
    source
    nextId := s.nextId + 1
    opened := place :: s.opened
    included := place :: s.included }

/-- An included file was read up to a state, and the file around it is read on. -/
def State.rejoin (s : State) (keyword : Handle) (inner : State) : State :=
  { inner with
    source := { s.source with tokens := (s.source.tokens.attach keyword inner.source.tokens).toOption.getD s.source.tokens }
    opened := s.opened }

@[simp] theorem State.rest_rejoin (s : State) (keyword : Handle) (inner : State) :
    (s.rejoin keyword inner).source.rest = s.source.rest := rfl

private theorem attach_run (s : State) (keyword : Handle) (inner : State) :
    (match s.source.tokens.attach keyword inner.source.tokens with
    | .ok tokens => modifyTokens fun _ => tokens
    | .error _ =>
      pure () : Parse Unit) { inner with source := s.source, opened := s.opened } =
        .ok ((), s.rejoin keyword inner) := by
  unfold State.rejoin
  cases s.source.tokens.attach keyword inner.source.tokens <;> rfl

private theorem readIncluded_eq (items : Parse Unit) (keyword : Handle) (place : FileTree.Place) (path : String)
    (content : Bytes) (s : State) :
    readIncluded items keyword place path content s = (match sourceOf s.nextId (some path) content with
      | .error e => .error e
      | .ok source => (items (s.enter source place)).map fun result => ((), s.rejoin keyword result.2)) := by
  unfold readIncluded
  simp only [bind, StateT.bind, get, getThe, MonadStateOf.get, StateT.get, pure, Except.pure, Except.bind]
  cases sourceOf s.nextId (some path) content with
  | error e => rfl
  | ok source =>
    show Except.bind (items (s.enter source place)) (fun result => _) = Except.map _ (items (s.enter source place))
    cases items (s.enter source place) with
    | error e => rfl
    | ok result => exact attach_run s keyword result.2

/-- A directive leads to a file that is not being read, and that may be included. -/
structure State.Opens (s : State) (d : Directive) (place : FileTree.Place) (content : Bytes)
    (source : Source) : Prop where
  located : s.tree.locate d.path = .ok place
  shut : place ∉ s.opened
  new : s.settings.mode = .once → place ∉ s.included
  read : s.tree.read d.path = .ok content
  lexed : sourceOf s.nextId (some d.path) content = .ok source

/-- What a directive comes to once it was read: a path that cannot be read, a cycle, a file that is passed
over or one that is read. -/
theorem follow_cases (d : Directive) (s : State) :
    (∃ e, (∀ items, follow items d s = .error e) ∧ (∀ written, e.problem ≠ .includeCycle written) ∧
      ∀ place, s.tree.locate d.path = .ok place → place ∉ s.opened ∧ (s.settings.mode = .once → place ∉ s.included)) ∨
    (∃ e place, (∀ items, follow items d s = .error e) ∧ e.problem = .includeCycle d.written ∧
    s.tree.locate d.path = .ok place ∧
      place ∈ s.opened) ∨
    (∃ place, (∀ items, follow items d s = .ok ((), s)) ∧ s.tree.locate d.path = .ok place ∧ place ∉ s.opened ∧
      s.settings.mode = .once ∧ place ∈ s.included) ∨
    ∃ place content source, s.Opens d place content source ∧
      ∀ items, follow items d s = (items (s.enter source place)).map fun result =>
      ((), s.rejoin d.keyword result.2) := by
  have run (items : Parse Unit) : follow items d s = (match s.tree.locate d.path with
      | .error fault => fail d.token (.includeFailed d.written fault.message)
      | .ok place =>
        if s.opened.contains place then fail d.token (.includeCycle d.written)
        else if s.settings.mode == .once && s.included.contains place then return ()
        else
          match s.tree.read d.path with
          | .error fault => fail d.token (.includeFailed d.written fault.message)
          | .ok content => readIncluded items d.keyword place d.path content : Parse Unit) s := rfl
  simp only [run]
  cases located : s.tree.locate d.path with
  | error fault => exact .inl ⟨_, fun _ => rfl, by simp, nofun⟩
  | ok place =>
    dsimp only
    split_ifs with cycle again
    · exact .inr (.inl ⟨_, place, fun _ => rfl, rfl, rfl, by simpa using cycle⟩)
    · have skipped : s.settings.mode = .once ∧ place ∈ s.included := by simpa using again
      exact .inr (.inr (.inl ⟨place, fun _ => rfl, rfl, by simpa using cycle, skipped⟩))
    · have shut : place ∉ s.opened := by simpa using cycle
      have new : s.settings.mode = .once → place ∉ s.included := by simpa using again
      cases read : s.tree.read d.path with
      | error fault => exact .inl ⟨_, fun _ => rfl, by simp, fun _ same => Except.ok.inj same ▸ ⟨shut, new⟩⟩
      | ok content =>
        simp only [readIncluded_eq]
        cases lexed : sourceOf s.nextId (some d.path) content with
        | error e => exact .inl ⟨e, fun _ => rfl, sourceOf_tame lexed, fun _ same => Except.ok.inj same ▸ ⟨shut, new⟩⟩
        | ok source =>
          exact .inr (.inr (.inr ⟨place, content, source, ⟨located, shut, new, read, lexed⟩, fun _ => rfl⟩))

/-- What is found in a source. -/
inductive Piece where
  | imported (i : Import)
  | ruled (rule : Rule)
  /-- A file that a directive includes, by the identity of its stream. -/
  | opened (d : Directive) (id : ChainId) (place : FileTree.Place)

/-- From a state, some items are read one after the other. -/
inductive Course : State → List Piece → State → Prop
  | done (s : State) : Course s [] s
  | imported {s between s' : State} {pieces : List Piece} (run : importDirective s = .ok ((), between))
      (rest : Course between pieces s') :
      Course s ((between.imports.drop s.imports.length).map .imported ++ pieces) s'
  | ruled {s between s' : State} {pieces : List Piece} {found : Rule} (run : rule s = .ok (found, between))
      (rest : Course { between with rules := between.rules ++ [found] } pieces s') : Course s
      (.ruled found :: pieces) s'
  /-- The file was included before and is passed over. -/
  | skipped {s between s' : State} {pieces : List Piece} {d : Directive} {place : FileTree.Place}
      (run : directive s = .ok (d, between)) (located : between.tree.locate d.path = .ok place)
      (shut : place ∉ between.opened)
      (again : between.settings.mode = .once ∧ place ∈ between.included)
      (rest : Course between pieces s') : Course s pieces s'
  | opened {s between inner s' : State} {below pieces : List Piece} {d : Directive} {place : FileTree.Place}
      {content : Bytes}
      {source : Source} (run : directive s = .ok (d, between)) (opens : between.Opens d place content source)
      (inside : Course (between.enter source place) below inner)
      (rest : Course (between.rejoin d.keyword inner) pieces s') :
      Course s (.opened d between.nextId place :: below ++ pieces) s'

theorem Course.append {s between s' : State} {pieces more : List Piece} (first : Course s pieces between)
    (second : Course between more s') : Course s (pieces ++ more) s' := by
  induction first with
  | done => exact second
  | imported run rest ih => simpa using (ih second).imported run
  | ruled run rest ih => exact (ih second).ruled run
  | skipped run located shut again rest ih => exact (ih second).skipped run located shut again
  | opened run opens inside rest _ ih => simpa using Course.opened run opens inside (ih second)

/-- Some items were read since a state. -/
def Since (start s : State) : Prop := ∃ pieces, Course start pieces s

theorem Since.step {step : Parse Unit} (course : ∀ s s', step s = .ok ((), s') → ∃ pieces, Course s pieces s')
    (start : State) : Ensures (Since start) step fun _ => Since start := by
  rintro s _ s' done ⟨pieces, before⟩
  obtain ⟨more, after⟩ := course s s' done
  exact ⟨_, before.append after⟩

private theorem follow_courses {items : Parse Unit} (inner : ∀ start, Ensures (Since start) items fun _ => Since start)
    {s between s' : State} {d : Directive} (run : directive s = .ok (d, between))
    (done : follow items d between = .ok ((), s')) : ∃ pieces, Course s pieces s' := by
  rcases follow_cases d between with ⟨e, failed, _⟩ | ⟨e, place, failed, _⟩ | ⟨place, passed, located, shut, again⟩ |
    ⟨place, content, source, opens, entered⟩
  · cases (failed items).symm.trans done
  · cases (failed items).symm.trans done
  · cases (passed items).symm.trans done
    exact ⟨_, .skipped run located shut again (.done _)⟩
  · rw [entered items] at done
    cases below : items (between.enter source place) with
    | error e => rw [below] at done; cases done
    | ok result =>
      rw [below] at done
      cases done
      obtain ⟨pieces, inside⟩ := inner _ _ _ _ below ⟨[], .done _⟩
      exact ⟨_, .opened run opens inside (.done _)⟩

private theorem includeDirective_courses {items : Parse Unit}
    (inner : ∀ start, Ensures (Since start) items fun _ => Since start) (start : State) : Ensures (Since start)
    (includeDirective items) fun _ => Since start := by
  refine Since.step (fun s s' done => ?_) start
  rw [includeDirective_eq] at done
  obtain ⟨d, between, run, done⟩ := bind_done done
  exact follow_courses inner run done

private theorem rule_courses {next : Parse Unit} {start : State}
    (rest : Ensures (Since start) next fun _ => Since start) :
    Ensures (Since start) (do
      let rule ← rule
      modify fun s => { s with rules := s.rules ++ [rule] }
      next) fun _ => Since start := by
  rintro s u s' done ⟨pieces, before⟩
  obtain ⟨found, between, run, done⟩ := bind_done done
  exact rest _ u s' done ⟨_, before.append (.ruled run (.done _))⟩

private theorem items_courses {include_ : Parse Unit} {start : State}
    (includes : Ensures (Since start) include_ fun _ => Since start) :
    ∀ bound, Ensures (Since start) (items include_ bound) fun _ => Since start
  | 0 => .pure fun _ since => since
  | bound + 1 => by
    refine .skip (fun _ => rfl) fun next => ?_
    split
    · exact .pure fun _ since => since
    · exact .bind (Since.step (fun s s' run => ⟨_, .imported run (.done s')⟩) start)
        fun _ => items_courses includes bound
    · exact .bind includes fun _ => items_courses includes bound
    · exact rule_courses (items_courses includes bound)
    · exact rule_courses (items_courses includes bound)
    · exact rule_courses (items_courses includes bound)
    · exact .never (.bind (never_unexpected _) _)

private theorem itemsWithin_courses : ∀ depth start, Ensures (Since start) (itemsWithin depth) fun _ => Since start
  | 0, start =>
    .skip (fun _ => rfl) fun bound => items_courses
      (includeDirective_courses (fun _ => .pure fun _ since => since) start) bound
  | depth + 1, start =>
    .skip (fun _ => rfl) fun bound => items_courses (includeDirective_courses (itemsWithin_courses depth) start) bound

theorem itemsWithin_course {depth : Nat} {s s' : State} (done : itemsWithin depth s = .ok ((), s')) :
    ∃ pieces, Course s pieces s' :=
  itemsWithin_courses depth s s () s' done ⟨[], .done s⟩

/-! ### Files -/

/-- Nothing was read yet. -/
def State.first (settings : Settings) (tree : FileTree) (source : Source) (nextId : ChainId)
    (opened : List FileTree.Place) : State where
  settings := settings
  tree := tree
  source := source
  nextId := nextId
  opened := opened
  included := opened
  pool := { features := settings.features }

/-- The file that was read up to a state. -/
def State.file (s : State) (features : Features) : RuleFile where
  tokens := s.source.tokens
  imports := s.imports
  rules := s.rules
  pool := s.pool
  features := features
  nextId := s.nextId

theorem readSource_eq (settings : Settings) (tree : FileTree) (source : Source) (nextId : ChainId)
    (opened : List FileTree.Place) :
    readSource settings tree source nextId opened =
    (itemsWithin tree.files.length (.first settings tree source nextId opened)).map
      fun result => result.2.file settings.features := by
  show Except.bind (itemsWithin tree.files.length (.first settings tree source nextId opened)) _ = _
  cases itemsWithin tree.files.length (.first settings tree source nextId opened) <;> rfl

theorem readSource_course {settings : Settings} {tree : FileTree} {source : Source} {nextId : ChainId}
    {opened : List FileTree.Place} {file : RuleFile}
    (done : readSource settings tree source nextId opened = .ok file) : ∃ pieces last,
    Course (.first settings tree source nextId opened) pieces last ∧ last.file settings.features = file := by
  rw [readSource_eq] at done
  cases found : itemsWithin tree.files.length (.first settings tree source nextId opened) with
  | error e => rw [found] at done; cases done
  | ok result =>
    rw [found] at done
    obtain ⟨pieces, course⟩ := itemsWithin_course found
    exact ⟨pieces, result.2, course, Except.ok.inj done⟩

end Grammar

end YaraRules
