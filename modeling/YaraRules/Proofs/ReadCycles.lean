import YaraRules.Proofs.Outcomes
import YaraRules.Proofs.ReadDepths

/-! Files that lead back to themselves. A directive is refused where it leads to a file that is
being read, and nowhere else is a cycle reported. Files that are being read are those on
the way from the first file to the directive; they are the same after a directive as
before it. -/

namespace YaraRules.Grammar

variable {l : Ledger} {s between inner s' : State} {pieces : List Piece} {d : Directive} {place : FileTree.Place}
  {content : Bytes} {source : Source} {chain past : List FileTree.Place} {written : String}

/-- What a state says of the files that were opened before it. -/
structure Trail (s : State) (chain past : List FileTree.Place) (s' : State) : Prop where
  settings : s'.settings = s.settings
  tree : s'.tree = s.tree
  opened : s'.opened = chain ++ s.opened
  included : s'.included = past.reverse ++ s.included
  poised : ∃ l, Poised l s'

theorem Course.trail (course : Course s pieces s') (poised : Poised l s) : Trail s [] (placesOf pieces) s' where
  settings := (course.tracked poised).1.settings
  tree := (course.tracked poised).1.tree
  opened := (course.tracked poised).1.opened
  included := (course.tracked poised).2.included
  poised := ⟨l, (course.forth poised).2⟩

theorem Reaches.trail (reaches : Reaches s chain past s') : ∀ {l}, Poised l s → Trail s chain past s' := by
  induction reaches with
  | along course => exact course.trail
  | @inside s t between s' pieces d place content source chain past course found opens within ih =>
    intro l poised
    have before := course.trail poised
    obtain ⟨_, poised'⟩ := before.poised
    have passed := poised'.directive_passed found
    have after := ih (poised'.opening found opens).inner
    have opened : between.opened = s.opened := passed.kept.opened.trans before.opened
    have included : between.included = (placesOf pieces).reverse ++ s.included := passed.included.trans before.included
    exact {
      settings := after.settings.trans (passed.kept.settings.trans before.settings)
      tree := after.tree.trans (passed.kept.tree.trans before.tree)
      opened := by simp [after.opened, State.enter, opened]
      included := by simp [after.included, State.enter, included]
      poised := after.poised }

/-! ### Cycles -/

/-- The directive that comes next leads to a file that is being read. -/
def State.Cycles (s : State) (written : String) : Prop :=
  ∃ d between place, directive s = .ok (d, between) ∧ d.written = written ∧
  between.tree.locate d.path = .ok place ∧ place ∈ between.opened

/-- A source was read to its end, or there was a problem. That is a cycle only if a directive led to a file
that was being read. -/
def Ends (s : State) : Except ParseError (Unit × State) → Prop
  | .ok (_, s') => s'.source.rest = []
  | .error e => ∀ written, e.problem = .includeCycle written → ∃ chain past t, Reaches s chain past t ∧ t.Cycles written

theorem Ends.before (course : Course s pieces between) : ∀ {result}, Ends between result → Ends s result
  | .ok _, ends => ends
  | .error _, ends => fun written cycle => by
    obtain ⟨chain, past, t, reaches, cycles⟩ := ends written cycle
    exact ⟨chain, _, t, course.reaches reaches, cycles⟩

private theorem items_ends {reader : Parse Unit} {most : Nat} (courses : Courses reader)
    (ends : ∀ l s, Poised l s → s.shut.length < most → Ends s (reader s)) (bound : Nat) : ∀ {l s}, Poised l s →
      s.shut.length ≤ most → s.source.rest.length ≤ bound → Ends s (items (includeDirective reader) bound s) := by
  induction bound with
  | zero =>
    intro l s _ _ enough
    exact List.length_eq_zero_iff.mp (Nat.le_zero.mp enough)
  | succ bound ih =>
    intro l s poised few enough
    by_cases more : s.source.rest = []
    · rw [items_ended more]
      exact more
    rcases poised.turn more with ⟨e, tame, run⟩ | ⟨d, between, place, e, found, located, opened, problem, run⟩ |
      ⟨between, pieces, course, passed, run⟩ | ⟨d, between, place, content, source, found, opens, run⟩
    · rw [run]
      exact fun written cycle => absurd cycle (tame written)
    · rw [run]
      intro written cycle
      have same : d.written = written := by simpa [problem] using cycle
      exact ⟨[], _, s, .along (.done s), d, between, place, found, same, located, opened⟩
    · have shorter := passed.shorter
      rw [run]
      refine .before course (ih (course.forth poised).2 ?_ (by omega))
      rw [passed.kept.shut]
      exact few
    · have kept := (poised.directive_passed found).kept
      have fewer := opens.fewer
      rw [kept.shut] at fewer
      have within := ends _ _ (poised.opening found opens).inner (Nat.lt_of_lt_of_le fewer few)
      rw [run]
      cases inside : reader (between.enter source place) with
      | error e =>
        rw [inside] at within
        intro written cycle
        obtain ⟨chain, past, t, reaches, cycles⟩ := within written cycle
        exact ⟨_, _, t, .inside (.done s) found opens reaches, cycles⟩
      | ok result =>
        obtain ⟨⟨⟩, inner⟩ := result
        obtain ⟨pieces, course⟩ := courses _ inner inside
        obtain ⟨poised', kept, shorter⟩ := poised.back found opens course
        refine .before (.opened found opens course (.done _)) (ih poised' ?_ (by omega))
        rw [kept.shut]
        exact few

theorem itemsWithin_ends : ∀ (most : Nat) {l s}, Poised l s → s.shut.length ≤ most → Ends s (itemsWithin most s)
  | 0, _, _, poised, few => items_ends (fun s _ done => ⟨[], by cases done; exact .done s⟩)
      (fun _ _ _ fewer => absurd fewer (Nat.not_lt_zero _)) _ poised few (Nat.le_refl _)
  | most + 1, _, _, poised, few => items_ends (itemsWithin_sound most)
      (fun _ _ poised' fewer => itemsWithin_ends most poised' (Nat.le_of_lt_succ fewer)) _ poised few (Nat.le_refl _)

private theorem includeDirective_opened {reader : Parse Unit} (done : includeDirective reader s = .ok ((), s')) :
    s'.opened = s.opened := by
  rw [includeDirective_eq] at done
  obtain ⟨d, between, found, done⟩ := bind_done done
  have before : between.opened = s.opened :=
    congrArg Surroundings.opened (directive_calm.onward s d between found).around
  rcases follow_cases d between with ⟨e, failed, _⟩ | ⟨e, place, failed, _⟩ | ⟨place, passed, _⟩
    | ⟨place, content, source, opens, entered⟩
  · cases (failed reader).symm.trans done
  · cases (failed reader).symm.trans done
  · cases (passed reader).symm.trans done
    exact before
  · rw [entered reader] at done
    cases inside : reader (between.enter source place) with
    | error e => rw [inside] at done; cases done
    | ok result =>
      rw [inside] at done
      cases done
      exact before

theorem expect_done {kind : TokenKind} {h : Handle} (done : expect kind s = .ok (h, s')) :
    ∃ rest, s.source.rest = h :: rest ∧ s' = { s with source := { s.source with rest } } := by
  obtain ⟨_, _, looked, run⟩ := bind_done done
  cases looked
  split_ifs at run
  · exact advance_done run
  · exact absurd run (never_unexpected _ _ _ _)

/-- Two tokens are read, and nothing else is done. -/
theorem directive_done (found : directive s = .ok (d, between)) :
    ∃ rest, s.source.rest = d.keyword :: d.token :: rest ∧ between = { s with source := { s.source with rest } } := by
  obtain ⟨keyword, _, first, run⟩ := bind_done found
  obtain ⟨token, _, second, run⟩ := bind_done run
  obtain ⟨after, split, rfl⟩ := expect_done first
  obtain ⟨rest, split', rfl⟩ := expect_done second
  obtain rfl : after = token :: rest := split'
  cases run
  exact ⟨rest, split, rfl⟩

end YaraRules.Grammar

/-- A stream is nested in another one, at any depth. -/
def YaraRules.TokenStream.Nests (s : YaraRules.TokenStream) (above below : YaraRules.ChainId) : Prop :=
  below ≠ above ∧ ∃ outer, s.owner? above = some outer ∧ below ∈ outer.ids

namespace YaraRules.RuleFile

open Grammar

/-- Where rules are read from. -/
inductive Origin where
  | text (content : Bytes)
  | path (path : String)

namespace Origin

def read (settings : Settings) (tree : FileTree) (id : ChainId) : Origin → Except ParseError RuleFile
  | .text content => ofSource settings tree id content
  | .path name => ofPath settings tree id name

/-- Places of the files that are being read before the first token is. -/
def opened (tree : FileTree) : Origin → List FileTree.Place
  | .text _ => []
  | .path name => (tree.locate name).toOption.toList

def source (tree : FileTree) (id : ChainId) : Origin → Except ParseError Source
  | .text content => sourceOf id none content
  | .path name =>
    match tree.read name with
    | .error fault => .error ⟨.includeFailed name fault.message, {}⟩
    | .ok content => sourceOf id (some name) content

/-- Reads a file to which the depth of files and the number of items do not matter, as in `itemsOver`. -/
def readOver (beyond : Parse Unit) (spare depth : Nat) (settings : Settings) (tree : FileTree) (id : ChainId)
    (origin : Origin) :
    Except ParseError RuleFile := do
  let source ← origin.source tree id
  let ((), s) ← itemsOver beyond spare depth (.first settings tree source (id + 1) (origin.opened tree))
  return s.file settings.features

variable {settings : Settings} {tree : FileTree} {id : ChainId} {origin : Origin} {source : Source}

theorem source_cases (tree : FileTree) (id : ChainId) (origin : Origin) :
    (∃ path content, origin.source tree id = sourceOf id path content) ∨ ∃ e, origin.source tree id = .error e ∧
    ∀ written, e.problem ≠ .includeCycle written := by
  cases origin with
  | text content => exact .inl ⟨none, content, rfl⟩
  | path name =>
    cases read : tree.read name with
    | error fault => exact .inr ⟨⟨.includeFailed name fault.message, {}⟩, by simp only [Origin.source, read], by simp⟩
    | ok content => exact .inl ⟨some name, content, by simp only [Origin.source, read]⟩

theorem source_laid (found : origin.source tree id = .ok source) : source.Fresh id ∧ Untouched source.tokens := by
  rcases origin.source_cases tree id with ⟨path, content, same⟩ | ⟨e, failed, _⟩
  · exact ⟨sourceOf_fresh (same.symm.trans found), sourceOf_untouched (same.symm.trans found)⟩
  · cases failed.symm.trans found

private theorem source_tame {e : ParseError} (failed : origin.source tree id = .error e) :
    ∀ written, e.problem ≠ .includeCycle written := by
  rcases origin.source_cases tree id with ⟨path, content, same⟩ | ⟨e', failed', tame⟩
  · exact sourceOf_tame (same.symm.trans failed)
  · cases failed'.symm.trans failed
    exact tame

theorem read_eq (settings : Settings) (tree : FileTree) (id : ChainId) (origin : Origin) :
    origin.read settings tree id = (origin.source tree id >>= fun source =>
    readSource settings tree source (id + 1) (origin.opened tree)) := by
  cases origin with
  | text content => rfl
  | path name =>
    simp only [Origin.read, Origin.source, ofPath]
    cases tree.read name <;> rfl

/-- Where reading begins. -/
def start (settings : Settings) (tree : FileTree) (id : ChainId) (origin : Origin) (source : Source) : State :=
  .first settings tree source (id + 1) (origin.opened tree)

theorem start_poised (found : origin.source tree id = .ok source) :
    Poised ⟨id, [], [], [], {}⟩ (origin.start settings tree id source) :=
  (source_laid found).1.poised (source_laid found).2

private theorem start_shut (settings : Settings) (tree : FileTree) (id : ChainId) (origin : Origin) (source : Source) :
    (origin.start settings tree id source).shut.length ≤ tree.files.length := List.length_filter_le _ _

/-- What is read comes from the items of a source, or there is a problem before them. -/
theorem read_cases (settings : Settings) (tree : FileTree) (id : ChainId) (origin : Origin) :
    (∃ e, origin.source tree id = .error e ∧ origin.read settings tree id = .error e) ∨
    ∃ source, origin.source tree id = .ok source ∧ origin.read settings tree id =
      (itemsWithin tree.files.length (origin.start settings tree id source)).map fun result =>
      result.2.file settings.features := by
  rw [read_eq]
  cases found : origin.source tree id with
  | error e => exact .inl ⟨e, rfl, rfl⟩
  | ok source => exact .inr ⟨source, rfl, readSource_eq ..⟩

private theorem readOver_eq (settings : Settings) (tree : FileTree) (id : ChainId) (origin : Origin)
    (beyond : Parse Unit) (spare : Nat) {depth : Nat} (deep : tree.files.length < depth) :
    origin.readOver beyond spare depth settings tree id = origin.read settings tree id := by
  unfold readOver
  rcases origin.read_cases settings tree id with ⟨e, failed, run⟩ | ⟨source, found, run⟩
  · rw [failed, run]
    rfl
  · have few := start_shut settings tree id origin source
    have same := itemsOver_eq beyond spare tree.files.length depth (start_poised found)
      (Nat.lt_of_le_of_lt few deep) few
    rw [run, found, ← same]
    show Except.bind (itemsOver beyond spare depth (origin.start settings tree id source)) _ = _
    cases itemsOver beyond spare depth (origin.start settings tree id source) <;> rfl

/-- Streams of a file that was read, each with the file that it was read from. None of these files is read
while it is being read. -/
structure Nested (settings : Settings) (tree : FileTree) (id : ChainId) (origin : Origin) (file : RuleFile)
    (files : List Inclusion) : Prop where
  ids : ∀ k, k ∈ file.tokens.ids ↔ k = id ∨ k ∈ files.map (·.id)
  unlike : (id :: files.map (·.id)).Nodup
  lexed : ∀ inclusion ∈ files, inclusion.Lexed tree file.tokens
  apart : ∀ above ∈ files, ∀ below ∈ files, file.tokens.Nests above.id below.id → above.place ≠ below.place
  first : ∀ inclusion ∈ files, inclusion.place ∉ origin.opened tree
  once : settings.mode = .once → (origin.opened tree ++ files.map (·.place)).Nodup

private theorem opened_nodup (tree : FileTree) (origin : Origin) : (origin.opened tree).Nodup := by
  cases origin with
  | text content => exact List.nodup_nil
  | path name =>
    cases located : tree.locate name <;> simp [opened, located, Except.toOption]

private theorem read_nested {file : RuleFile} (done : origin.read settings tree id = .ok file) :
    ∃ files, Nested settings tree id origin file files := by
  rcases origin.read_cases settings tree id with ⟨e, _, run⟩ | ⟨source, found, run⟩
  · cases run.symm.trans done
  rw [run] at done
  cases inside : itemsWithin tree.files.length (origin.start settings tree id source) with
  | error e => rw [inside] at done; cases done
  | ok result =>
    obtain ⟨⟨⟩, last⟩ := result
    rw [inside] at done
    cases done
    obtain ⟨pieces, course⟩ := itemsWithin_course inside
    obtain ⟨kept, tracked⟩ := course.tracked (start_poised found)
    obtain ⟨fresh, _⟩ := source_laid found
    have own : (origin.start settings tree id source).source.tokens.ids = [id] :=
      fresh.lone.ids.trans (congrArg ([·]) fresh.named)
    have ids (k : ChainId) : k ∈ last.source.tokens.ids ↔ k = id ∨ k ∈ (inclusionsOf pieces).map (·.id) := by
      rw [tracked.ids, own, List.mem_singleton]
    refine ⟨inclusionsOf pieces, {
      ids
      unlike := List.nodup_cons.mpr ⟨fun again => ?_, tracked.unlike⟩
      lexed := tracked.lexed
      apart := fun above member below member' nests same => ?_
      first := tracked.shut
      once := fun once => ?_ }⟩
    · obtain ⟨file, member, same⟩ := List.mem_map.mp again
      exact Nat.not_succ_le_self id (same ▸ (tracked.fresh file member).1)
    · obtain ⟨apart, sees⟩ := nests
      obtain top | ⟨other, listed, named, other'⟩ :=
        tracked.nested above member ⟨above.id, 0, 0⟩ ⟨below.id, 0, 0⟩ rfl sees
      · exact apart top
      · obtain rfl : other = below := List.inj_on_of_nodup_map tracked.unlike listed member' named
        exact other' same.symm
    · obtain ⟨nodup, new⟩ := tracked.new once
      refine List.Nodup.append ?_ nodup fun place early late => ?_
      · exact opened_nodup tree origin
      · obtain ⟨file, member, rfl⟩ := List.mem_map.mp late
        exact new file member early

private theorem read_cycle {e : ParseError} {written : String} (failed : origin.read settings tree id = .error e)
    (cycle : e.problem = .includeCycle written) : ∃ source chain past t, origin.source tree id = .ok source ∧
      Reaches (origin.start settings tree id source) chain past t ∧ t.Cycles written := by
  rcases origin.read_cases settings tree id with ⟨e', failed', run⟩ | ⟨source, found, run⟩
  · cases run.symm.trans failed
    exact absurd cycle (source_tame failed' written)
  rw [run] at failed
  have ends := itemsWithin_ends tree.files.length (start_poised found) (start_shut settings tree id origin source)
  cases inside : itemsWithin tree.files.length (origin.start settings tree id source) with
  | ok result => rw [inside] at failed; cases failed
  | error e' =>
    rw [inside] at failed ends
    cases failed
    obtain ⟨chain, past, t, reaches, cycles⟩ := ends written cycle
    exact ⟨source, chain, past, t, found, reaches, cycles⟩

/-- Whatever files include one another, reading ends: it never comes to files nested deeper than there are
files, nor to more items than tokens. In a file that was read, files nested in one another are distinct, and
all are where each is included once. A cycle is reported only where a directive leads to a file that is being
read, and a directive leaves these files as they are. -/
theorem includes_end (settings : Settings) (tree : FileTree) (id : ChainId) (origin : Origin) :
    (∀ beyond spare depth, tree.files.length < depth →
      origin.readOver beyond spare depth settings tree id = origin.read settings tree id) ∧
    (∀ file, origin.read settings tree id = .ok file → ∃ files, Nested settings tree id origin file files) ∧
    (∀ e written, origin.read settings tree id = .error e → e.problem = .includeCycle written →
      ∃ source chain past t d between place, origin.source tree id = .ok source ∧
        Reaches (origin.start settings tree id source) chain past t ∧ t.opened = chain ++ origin.opened tree ∧
        directive t = .ok (d, between) ∧ d.written = written ∧ tree.locate d.path = .ok place ∧ place ∈ t.opened) ∧
    ∀ reader s s', includeDirective reader s = .ok ((), s') → s'.opened = s.opened := by
  refine ⟨fun beyond spare depth => readOver_eq settings tree id origin beyond spare, fun file => read_nested, ?_,
    fun reader s s' => includeDirective_opened⟩
  intro e written failed cycle
  obtain ⟨source, chain, past, t, found, reaches, d, between, place, run, same, located, opened⟩ :=
    read_cycle failed cycle
  have trail := reaches.trail (start_poised found)
  obtain ⟨rest, _, rfl⟩ := directive_done run
  have located : tree.locate d.path = .ok place := by rwa [← show t.tree = tree from trail.tree]
  exact ⟨source, chain, past, t, d, _, place, found, reaches, trail.opened, run, same, located, opened⟩

/-- A file that includes another one by two paths. -/
def twiceTree : FileTree :=
  .ofPaths [("a.yar", Bytes.ofText "include \"b.yar\" include \"./b.yar\""), ("b.yar", Bytes.ofText "import \"pe\"")]

theorem includes_end_twice : ∃ file, (Origin.path "a.yar").read { mode := .once } twiceTree 0 = .ok file ∧
    file.tokens.ids = [0, 1] ∧ ∃ files, Nested { mode := .once } twiceTree 0 (.path "a.yar") file files := by
  have run : ((Origin.path "a.yar").read { mode := .once } twiceTree 0).toOption.map (·.tokens.ids) = some [0, 1] := by
    decide +kernel
  cases done : (Origin.path "a.yar").read { mode := .once } twiceTree 0 with
  | error e => rw [done] at run; cases run
  | ok file =>
    rw [done] at run
    exact ⟨file, rfl, Option.some.inj run, (includes_end { mode := .once } twiceTree 0 (.path "a.yar")).2.1 file done⟩

/-! ### Files that are included again -/

/-- Where each file is included once, a directive that leads to a file which was opened before, or with which
reading began, is passed over if that file was read to its end. If it is still being read, that is a cycle. -/
theorem included_again {chain past : List FileTree.Place} {t between : State} {d : Directive} {place : FileTree.Place}
    (once : settings.mode = .once) (found : origin.source tree id = .ok source)
    (reaches : Reaches (origin.start settings tree id source) chain past t) (run : directive t = .ok (d, between))
    (located : tree.locate d.path = .ok place) (again : place ∈ past ++ origin.opened tree) (reader : Parse Unit) :
    (place ∉ chain ++ origin.opened tree →
      includeDirective reader t = .ok ((), { t with source := { t.source with rest := t.source.rest.drop 2 } })) ∧
    (place ∈ chain ++ origin.opened tree → ∃ e, includeDirective reader t = .error e ∧
    e.problem = .includeCycle d.written) := by
  have trail := reaches.trail (start_poised found)
  obtain ⟨rest, split, rfl⟩ := directive_done run
  have located : t.tree.locate d.path = .ok place := by rwa [show t.tree = tree from trail.tree]
  have opened : t.opened = chain ++ origin.opened tree := trail.opened
  have included : place ∈ t.included := by
    have whole : t.included = past.reverse ++ origin.opened tree := trail.included
    simpa [whole] using again
  have mode : t.settings.mode = .once := (congrArg Settings.mode trail.settings).trans once
  rw [← opened, split, includeDirective_eq, bind_ok run]
  rcases follow_cases d { t with source := { t.source with rest } } with ⟨e, _, _, new⟩
    | ⟨e, other, failed, problem, same, inside⟩ |
    ⟨other, passed, same, outside, _⟩ | ⟨other, content, source, opens, entered⟩
  · exact absurd included ((new place located).2 mode)
  · obtain rfl : other = place := Except.ok.inj (same.symm.trans located)
    exact ⟨fun shut => absurd inside shut, fun _ => ⟨e, failed reader, problem⟩⟩
  · obtain rfl : other = place := Except.ok.inj (same.symm.trans located)
    exact ⟨fun _ => passed reader, fun inside => absurd inside outside⟩
  · obtain rfl : other = place := Except.ok.inj (opens.located.symm.trans located)
    exact absurd included (opens.new mode)

/-- A file that includes itself. -/
def selfTree : FileTree := .ofPaths [("a.yar", Bytes.ofText "include \"a.yar\"")]

private theorem self_located : yields ((Origin.path "a.yar").source selfTree 0) (fun source =>
    yields (directive ((Origin.path "a.yar").start { mode := .once } selfTree 0 source)) fun step =>
    yields (selfTree.locate step.1.path) fun place => place == .inside ["a.yar"]) = true := by
  decide +kernel

theorem included_again_self : ∃ source d between, (Origin.path "a.yar").source selfTree 0 = .ok source ∧
    directive ((Origin.path "a.yar").start { mode := .once } selfTree 0 source) = .ok (d, between) ∧
    ∃ e, includeDirective (pure ()) ((Origin.path "a.yar").start { mode := .once } selfTree 0 source) = .error e ∧
      e.problem = .includeCycle d.written := by
  obtain ⟨source, found, run⟩ := yields_iff.mp self_located
  obtain ⟨⟨d, between⟩, read, run⟩ := yields_iff.mp run
  obtain ⟨place, located, same⟩ := yields_iff.mp run
  obtain rfl : place = .inside ["a.yar"] := eq_of_beq same
  refine ⟨source, d, between, found, read, ?_⟩
  have known : FileTree.Place.inside ["a.yar"] ∈ (Origin.path "a.yar").opened selfTree := by decide +kernel
  exact (included_again rfl found (.along (.done _)) read located known (pure ())).2 known

end Origin

end YaraRules.RuleFile
