import YaraRules.Proofs.ReadFileScopes

/-! Files that are included by others. Each stream that is nested in another is that of a file
that a directive opened, and no file is opened while it is read: the files of streams that
are nested in one another are distinct, and where a file is included once, those of all
streams are. -/

namespace YaraRules.Grammar

open TokenStream (Joined)

variable {l : Ledger} {s between inner s' : State} {pieces : List Piece} {d : Directive} {place : FileTree.Place}
  {content : Bytes} {source : Source}

/-! ### What reading keeps -/

/-- What reading adds to is still there: streams keep their places, and tokens the location at which they were found. -/
structure Kept (s s' : State) : Prop where
  settings : s'.settings = s.settings
  tree : s'.tree = s.tree
  opened : s'.opened = s.opened
  next : s.nextId ≤ s'.nextId
  id : s'.source.tokens.chain.id = s.source.tokens.chain.id
  ids : s.source.tokens.ids ⊆ s'.source.tokens.ids
  located : ∀ h, h.chain ∈ s.source.tokens.ids → ∀ a, s'.source.tokens.get? h = some a →
    ∃ b, s.source.tokens.get? h = some b ∧ a.location = b.location
  /-- Nothing is put into the stream of a file that was included before. -/
  sees : ∀ k target, k.chain ∈ s.source.tokens.ids → k.chain ≠ s.source.tokens.chain.id →
    (s'.source.tokens.Sees k target ↔ s.source.tokens.Sees k target)

theorem Kept.refl (s : State) : Kept s s where
  settings := rfl
  tree := rfl
  opened := rfl
  next := Nat.le_refl _
  id := rfl
  ids := List.Subset.refl _
  located _ _ a found := ⟨a, found, rfl⟩
  sees _ _ _ _ := .rfl

theorem Kept.trans (first : Kept s between) (second : Kept between s') : Kept s s' where
  settings := second.settings.trans first.settings
  tree := second.tree.trans first.tree
  opened := second.opened.trans first.opened
  next := Nat.le_trans first.next second.next
  id := second.id.trans first.id
  ids := List.Subset.trans first.ids second.ids
  located h inside a found := by
    obtain ⟨b, middle, same⟩ := second.located h (first.ids inside) a found
    obtain ⟨c, start, before⟩ := first.located h inside b middle
    exact ⟨c, start, same.trans before⟩
  sees k target inside nested :=
    (second.sees k target (first.ids inside) (first.id ▸ nested)).trans (first.sees k target inside nested)

/-- Something was read of the source, and no file with it. -/
structure Passed (s s' : State) : Prop where
  kept : Kept s s'
  included : s'.included = s.included
  ids : s'.source.tokens.ids = s.source.tokens.ids
  shorter : s'.source.rest.length < s.source.rest.length

theorem Onward.passed {given : List Handle} (onward : Onward [] given s s') (sound : s.source.tokens.Sound)
    (some : given ≠ []) : Passed s s' := by
  obtain ⟨_, ids, sees⟩ := onward.settled.shaped sound
  obtain ⟨taken, rest, known, _⟩ := onward.read
  have least : 0 < taken.length := List.length_pos_iff.mpr fun none =>
    some (List.subset_nil.mp (by simpa [none] using known))
  refine ⟨?_, congrArg Surroundings.included onward.around, ids, by simp [rest, least]⟩
  exact {
    settings := congrArg Surroundings.settings onward.around
    tree := congrArg Surroundings.tree onward.around
    opened := congrArg Surroundings.opened onward.around
    next := Nat.le_of_eq (congrArg Surroundings.nextId onward.around).symm
    id := TokenStream.id_of_ids ids
    ids := ids ▸ List.Subset.refl _
    located := fun h _ a found => onward.settled.located h a found
    sees := fun k target _ _ => sees k target }

theorem Poised.sound (poised : Poised l s) : s.source.tokens.Sound := by
  obtain ⟨_, link⟩ := poised.accounted
  exact link.sound

theorem Poised.ids (poised : Poised l s) : ∀ id ∈ s.source.tokens.ids, id < s.nextId := by
  obtain ⟨_, link⟩ := poised.accounted
  exact fun id inside => (link.ids id inside).2

theorem Poised.import_passed (poised : Poised l s) (run : importDirective s = .ok ((), between)) :
    Passed s between := by
  obtain ⟨t, name, pool, imports, onward, rfl, _⟩ := importDirective_onward run
  have passed := onward.passed poised.sound (List.cons_ne_nil _ _)
  exact { passed with kept := { passed.kept with } }

theorem Poised.rule_passed {found : Rule} (poised : Poised l s) (run : rule s = .ok (found, between)) :
    Passed s { between with rules := between.rules ++ [found] } := by
  obtain ⟨_, link⟩ := poised.accounted
  have passed := (rule_calm.onward s found between run link).passed poised.sound (List.cons_ne_nil _ _)
  exact { passed with kept := { passed.kept with } }

theorem Poised.directive_passed (poised : Poised l s) (run : Grammar.directive s = .ok (d, between)) :
    Passed s between :=
  (directive_calm.onward s d between run).passed poised.sound (List.cons_ne_nil _ _)

theorem Opening.joined (opening : Opening l between d place source)
    (poised : Poised ⟨between.nextId, between.ruleNames, between.ruleNames, between.rules, {}⟩ inner) :
    Joined d.keyword between.source.tokens inner.source.tokens (between.rejoin d.keyword inner).source.tokens := by
  obtain ⟨_, outer⟩ := opening.outer
  exact (Accounted.rejoin outer poised.accounted).1

theorem Opening.kept (opening : Opening l between d place source) (within : Kept (between.enter source place) inner)
    (poised : Poised ⟨between.nextId, between.ruleNames, between.ruleNames, between.rules, {}⟩ inner) :
    Kept between (between.rejoin d.keyword inner) where
  settings := within.settings
  tree := within.tree
  opened := rfl
  next := Nat.le_of_succ_le within.next
  id := (opening.joined poised).id
  ids _ inside := ((opening.joined poised).ids _).mpr (.inl inside)
  located h inside a found := ⟨a, ((opening.joined poised).outer h inside).symm.trans found, rfl⟩
  sees k target inside nested := by
    rw [(opening.joined poised).seesOuter k target inside]
    simp [nested]

/-! ### Files that were opened -/

/-- A file that a directive opened, and the identity of its stream. -/
structure Inclusion where
  directive : Directive
  id : ChainId
  place : FileTree.Place

def Piece.inclusion? : Piece → Option Inclusion
  | .opened d id place => some ⟨d, id, place⟩
  | _ => none

def inclusionsOf (pieces : List Piece) : List Inclusion := pieces.filterMap Piece.inclusion?

@[simp] theorem inclusionsOf_append (pieces more : List Piece) :
    inclusionsOf (pieces ++ more) = inclusionsOf pieces ++ inclusionsOf more :=
  List.filterMap_append

@[simp] theorem inclusionsOf_imported (imports : List Import) : inclusionsOf (imports.map .imported) = [] := by
  simp [inclusionsOf, List.filterMap_map, Function.comp_def, Piece.inclusion?]

/-- The stream holds the tokens of the file, where the lexer found them. -/
def Inclusion.Lexed (tree : FileTree) (tokens : TokenStream) (file : Inclusion) : Prop :=
  tree.locate file.directive.path = .ok file.place ∧ ∃ content source, tree.read file.directive.path = .ok content ∧
    sourceOf file.id (some file.directive.path) content = .ok source ∧
    ∀ h a, h.chain = file.id → tokens.get? h = some a → ∃ b, source.tokens.get? h = some b ∧ a.location = b.location

theorem Inclusion.Lexed.mono {tree : FileTree} {tokens after : TokenStream} {file : Inclusion}
    (lexed : file.Lexed tree tokens) (located : ∀ h, h.chain = file.id → ∀ a, after.get? h = some a →
    ∃ b, tokens.get? h = some b ∧ a.location = b.location) : file.Lexed tree after := by
  obtain ⟨place, content, source, read, lexed, found⟩ := lexed
  refine ⟨place, content, source, read, lexed, fun h a own stored => ?_⟩
  obtain ⟨b, stored', same⟩ := located h own a stored
  obtain ⟨c, stored'', same'⟩ := found h b own stored'
  exact ⟨c, stored'', same.trans same'⟩

/-- What becomes of the files that were opened between two states. -/
structure Tracked (s : State) (files : List Inclusion) (s' : State) : Prop where
  included : s'.included = (files.map (·.place)).reverse ++ s.included
  ids : ∀ id, id ∈ s'.source.tokens.ids ↔ id ∈ s.source.tokens.ids ∨ id ∈ files.map (·.id)
  unlike : (files.map (·.id)).Nodup
  fresh : ∀ file ∈ files, s.nextId ≤ file.id ∧ file.id < s'.nextId
  shut : ∀ file ∈ files, file.place ∉ s.opened
  new : s.settings.mode = .once → (files.map (·.place)).Nodup ∧ ∀ file ∈ files, file.place ∉ s.included
  /-- What is nested in the stream of a file are the streams of other files. -/
  nested : ∀ file ∈ files, ∀ k target, k.chain = file.id → s'.source.tokens.Sees k target →
    target.chain = file.id ∨ ∃ below ∈ files, below.id = target.chain ∧ below.place ≠ file.place
  lexed : ∀ file ∈ files, file.Lexed s.tree s'.source.tokens

theorem Passed.tracked (passed : Passed s s') : Tracked s [] s' where
  included := passed.included
  ids := by simp [passed.ids]
  unlike := List.nodup_nil
  fresh := nofun
  shut := nofun
  new _ := ⟨List.nodup_nil, nofun⟩
  nested := nofun
  lexed := nofun

variable {files more : List Inclusion}

/-- What was opened first has its stream while other files are opened. -/
theorem Tracked.append (bound : ∀ id ∈ s.source.tokens.ids, id < s.nextId) (kept : Kept s between)
    (first : Tracked s files between) (kept' : Kept between s') (second : Tracked between more s') :
    Tracked s (files ++ more) s' where
  included := by rw [second.included, first.included, List.map_append, List.reverse_append, List.append_assoc]
  ids id := by rw [second.ids, first.ids, List.map_append, List.mem_append, or_assoc]
  unlike := by
    rw [List.map_append]
    refine first.unlike.append second.unlike fun id early late => ?_
    obtain ⟨file, member, rfl⟩ := List.mem_map.mp early
    obtain ⟨other, member', same⟩ := List.mem_map.mp late
    exact Nat.not_lt.mpr (second.fresh other member').1 (same ▸ (first.fresh file member).2)
  fresh file member := by
    rcases List.mem_append.mp member with early | late
    · obtain ⟨low, high⟩ := first.fresh file early
      exact ⟨low, Nat.lt_of_lt_of_le high kept'.next⟩
    · obtain ⟨low, high⟩ := second.fresh file late
      exact ⟨Nat.le_trans kept.next low, high⟩
  shut file member := (List.mem_append.mp member).elim (first.shut file) fun late => kept.opened ▸ second.shut file late
  new once := by
    obtain ⟨nodup, apart⟩ := first.new once
    obtain ⟨nodup', apart'⟩ := second.new (kept.settings ▸ once)
    rw [first.included] at apart'
    refine ⟨?_, fun file member => (List.mem_append.mp member).elim (apart file) fun late inside =>
      apart' file late (List.mem_append_right _ inside)⟩
    rw [List.map_append]
    refine nodup.append nodup' fun place early late => ?_
    obtain ⟨other, member, rfl⟩ := List.mem_map.mp late
    exact apart' other member (List.mem_append_left _ (List.mem_reverse.mpr early))
  nested file member k target own sees := by
    rcases List.mem_append.mp member with early | late
    · have inside : k.chain ∈ between.source.tokens.ids := (first.ids _).mpr (.inr (own ▸ List.mem_map_of_mem early))
      have deep : k.chain ≠ between.source.tokens.chain.id := fun top =>
        Nat.not_lt.mpr (own ▸ (first.fresh file early).1) (top ▸ kept.id ▸ bound _ s.source.tokens.id_mem_ids)
      obtain same | ⟨below, listed, rest⟩ :=
        first.nested file early k target own ((kept'.sees k target inside deep).mp sees)
      · exact .inl same
      · exact .inr ⟨below, List.mem_append_left _ listed, rest⟩
    · obtain same | ⟨below, listed, rest⟩ := second.nested file late k target own sees
      · exact .inl same
      · exact .inr ⟨below, List.mem_append_right _ listed, rest⟩
  lexed file member := by
    rcases List.mem_append.mp member with early | late
    · refine (first.lexed file early).mono fun h own =>
        kept'.located h ((first.ids _).mpr (.inr (own ▸ List.mem_map_of_mem early)))
    · exact kept.tree ▸ second.lexed file late

/-- A file was opened, and others while it was read. -/
theorem Opening.tracked (opening : Opening l between d place source) (opens : between.Opens d place content source)
    (kept : Kept (between.enter source place) inner) (within : Tracked (between.enter source place) files inner)
    (poised : Poised ⟨between.nextId, between.ruleNames, between.ruleNames, between.rules, {}⟩ inner) :
    Tracked between (⟨d, between.nextId, place⟩ :: files) (between.rejoin d.keyword inner) := by
  have joined := opening.joined poised
  have fresh := sourceOf_fresh opens.lexed
  have own : (between.enter source place).source.tokens.ids = [between.nextId] :=
    fresh.lone.ids.trans (congrArg ([·]) fresh.named)
  have ids (id : ChainId) : id ∈ inner.source.tokens.ids ↔ id ∈ between.nextId :: files.map (·.id) := by
    rw [within.ids, own, List.mem_singleton, List.mem_cons]
  have later (file : Inclusion) (member : file ∈ files) : between.nextId < file.id := (within.fresh file member).1
  have sees {k target : Handle} (inside : k.chain ∈ between.nextId :: files.map (·.id))
      (sees : (between.rejoin d.keyword inner).source.tokens.Sees k target) : inner.source.tokens.Sees k target :=
    (joined.seesInner k target ((ids _).mpr inside)).mp sees
  refine {
    included := ?_
    ids := fun id => by rw [joined.ids, ids, List.map_cons]
    unlike := List.nodup_cons.mpr ⟨fun again => ?_, within.unlike⟩
    fresh := List.forall_mem_cons.mpr ⟨⟨Nat.le_refl _, kept.next⟩, fun file member =>
      ⟨Nat.le_of_lt (later file member), (within.fresh file member).2⟩⟩
    shut := List.forall_mem_cons.mpr ⟨opens.shut, fun file member inside =>
      within.shut file member (List.mem_cons_of_mem _ inside)⟩
    new := fun once => ?_
    nested := List.forall_mem_cons.mpr ⟨fun k target top nested => ?_, fun file member k target here nested => ?_⟩
    lexed := List.forall_mem_cons.mpr ⟨⟨opens.located, content, source, opens.read, opens.lexed,
      fun h a top stored => ?_⟩,
      fun file member => ?_⟩ }
  · show inner.included = _
    rw [within.included]
    simp [State.enter]
  · obtain ⟨file, member, same⟩ := List.mem_map.mp again
    exact Nat.lt_irrefl _ (same ▸ later file member)
  · obtain ⟨nodup, apart⟩ := within.new once
    refine ⟨List.nodup_cons.mpr ⟨fun again => ?_, nodup⟩,
      List.forall_mem_cons.mpr ⟨opens.new once, fun file member inside =>
      apart file member (List.mem_cons_of_mem _ inside)⟩⟩
    obtain ⟨file, member, same⟩ := List.mem_map.mp again
    exact apart file member (same ▸ List.mem_cons_self)
  · -- The file is open while those in it are opened, so none of them is the file itself.
    have inside := (ids _).mp (sees (by simp [top]) nested).mem_ids
    rcases List.mem_cons.mp inside with same | below
    · exact .inl same
    · obtain ⟨file, member, same⟩ := List.mem_map.mp below
      exact .inr ⟨file, List.mem_cons_of_mem _ member, same, fun again =>
        within.shut file member (again ▸ List.mem_cons_self)⟩
  · have inside : k.chain ∈ between.nextId :: files.map (·.id) :=
      List.mem_cons_of_mem _ (here ▸ List.mem_map_of_mem member)
    obtain same | ⟨below, listed, rest⟩ := within.nested file member k target here (sees inside nested)
    · exact .inl same
    · exact .inr ⟨below, List.mem_cons_of_mem _ listed, rest⟩
  · have inside : h.chain ∈ inner.source.tokens.ids := (ids _).mpr (by simp [show h.chain = between.nextId from top])
    exact kept.located h (by rw [own]; simpa using top) a ((joined.inner h inside).symm.trans stored)
  · refine (within.lexed file member).mono fun h here a stored => ⟨a, ?_, rfl⟩
    have inside : h.chain ∈ inner.source.tokens.ids :=
      (ids _).mpr (List.mem_cons_of_mem _ (here ▸ List.mem_map_of_mem member))
    exact (joined.inner h inside).symm.trans stored

/-- The files that were opened on a course are tracked. -/
theorem Course.tracked (course : Course s pieces s') :
    ∀ {l}, Poised l s → Kept s s' ∧ Tracked s (inclusionsOf pieces) s' := by
  induction course with
  | done s => exact fun poised => ⟨.refl s, {
      included := rfl
      ids := by simp [inclusionsOf]
      unlike := List.nodup_nil
      fresh := nofun
      shut := nofun
      new := fun _ => ⟨List.nodup_nil, nofun⟩
      nested := nofun
      lexed := nofun }⟩
  | imported run rest ih =>
    intro l poised
    have passed := poised.import_passed run
    obtain ⟨kept, tracked⟩ := ih (poised.imported run).2
    refine ⟨passed.kept.trans kept, ?_⟩
    rw [inclusionsOf_append, inclusionsOf_imported]
    exact .append poised.ids passed.kept passed.tracked kept tracked
  | ruled run rest ih =>
    intro l poised
    have passed := poised.rule_passed run
    obtain ⟨kept, tracked⟩ := ih (poised.ruled run).2
    exact ⟨passed.kept.trans kept, .append poised.ids passed.kept passed.tracked kept tracked⟩
  | skipped run located shut again rest ih =>
    intro l poised
    have passed := poised.directive_passed run
    obtain ⟨kept, tracked⟩ := ih (poised.directive run).2
    exact ⟨passed.kept.trans kept, .append poised.ids passed.kept passed.tracked kept tracked⟩
  | opened run opens inside rest ihInside ihRest =>
    intro l poised
    have passed := poised.directive_passed run
    have opening := poised.opening run opens
    obtain ⟨forth, inner⟩ := inside.forth opening.inner
    obtain ⟨keptInside, within⟩ := ihInside opening.inner
    have entered := opening.kept keptInside inner
    obtain ⟨kept, tracked⟩ := ihRest (opening.rejoin inside forth inner).2.2
    have first := Tracked.append poised.ids passed.kept passed.tracked entered
      (opening.tracked opens keptInside within inner)
    refine ⟨(passed.kept.trans entered).trans kept, ?_⟩
    simpa [inclusionsOf, List.filterMap_cons, Piece.inclusion?] using
      Tracked.append poised.ids (passed.kept.trans entered) first kept tracked

/-! ### The way to a state -/

/-- Where files lie that were opened. -/
def placesOf (pieces : List Piece) : List FileTree.Place := (inclusionsOf pieces).map (·.place)

@[simp] theorem placesOf_append (pieces more : List Piece) :
    placesOf (pieces ++ more) = placesOf pieces ++ placesOf more := by
  simp [placesOf]

/-- Reading comes from one state to another. On the way the files at `past` were opened, and those at `chain`
were not read to their end, the innermost first. -/
inductive Reaches : State → List FileTree.Place → List FileTree.Place → State → Prop
  | along {s s' : State} {pieces : List Piece} (course : Course s pieces s') : Reaches s [] (placesOf pieces) s'
  | inside {s t between s' : State} {pieces : List Piece} {d : Directive} {place : FileTree.Place} {content : Bytes}
      {source : Source}
      {chain past : List FileTree.Place} (course : Course s pieces t) (found : directive t = .ok (d, between))
      (opens : between.Opens d place content source) (within : Reaches (between.enter source place) chain past s') :
      Reaches s (chain ++ [place]) (placesOf pieces ++ place :: past) s'

theorem Course.reaches {chain past : List FileTree.Place} (course : Course s pieces between)
    (reaches : Reaches between chain past s') : Reaches s chain (placesOf pieces ++ past) s' := by
  cases reaches with
  | along later => simpa using Reaches.along (course.append later)
  | inside later found opens within => simpa using Reaches.inside (course.append later) found opens within

end YaraRules.Grammar
