import YaraRules.Proofs.FileEdits
import YaraRules.Proofs.ReadCourses
import YaraRules.Proofs.ReadRules

/-! What files read. The rows of the imports and rules of a source stand one behind the
other in its tokens; those of an included file stand where the directive stands. -/

namespace YaraRules.Grammar

/-! ### Sources -/

/-- The tokens of a stream of its own that are to be read, in order. -/
structure Source.Fresh (source : Source) (id : ChainId) : Prop where
  lone : source.tokens.Lone
  named : source.tokens.chain.id = id
  listed : source.rest.Sublist source.tokens.code
  chain : ∀ h ∈ source.rest, h.chain = id

/-- A token comes behind all others, and it is read unless it is a comment or a line break. -/
theorem Source.Fresh.push {id : ChainId} {path : Option String} {stream : TokenStream} {rest : List Handle}
    (fresh : Source.Fresh ⟨stream, rest.reverse, path⟩ id) (token : Token) :
    Source.Fresh ⟨(stream.push token).2,
      (if token.kind.isTrivia then rest else (stream.push token).1 :: rest).reverse, path⟩ id := by
  obtain ⟨lone, same, chain, code⟩ := fresh.lone.push token
  refine ⟨lone, same.trans fresh.named, ?_, ?_⟩
  · rw [code]
    split_ifs with trivia
    · exact fresh.listed.trans (List.sublist_append_left _ _)
    · rw [TokenStream.codeOf_one fun broken => trivia (by rw [broken]; rfl), List.reverse_cons]
      exact fresh.listed.append_right _
  · split_ifs
    · exact fresh.chain
    · simpa [or_imp, forall_and, chain.trans fresh.named] using fresh.chain

/-- Tokens are laid behind those of a stream. The words among them are to be read, the last one first in the list. -/
def layWords (words : List Token) (laid : TokenStream × List Handle) : TokenStream × List Handle :=
  words.foldl (fun (stream, rest) token =>
    let (h, stream) := TokenStream.push stream token
    (stream, if token.kind.isTrivia then rest else h :: rest)) laid

/-- The words of a text are laid into the new stream of a source. -/
theorem sourceOf_done {id : ChainId} {path : Option String} {content : Bytes} {source : Source}
    (done : sourceOf id path content = .ok source) : ∃ words, Lexer.tokens path content = .ok words ∧
      source = ⟨(layWords words (.empty id, [])).1, (layWords words (.empty id, [])).2.reverse, path⟩ := by
  unfold sourceOf at done
  cases found : Lexer.tokens path content with
  | error e => simp [found, bind, Except.bind] at done
  | ok words =>
    rw [found] at done
    obtain rfl := Except.ok.inj done
    exact ⟨words, rfl, rfl⟩

/-- What holds of no tokens, and still holds with one token more, holds of a source. -/
theorem sourceOf_holds {id : ChainId} {path : Option String} {content : Bytes} {source : Source}
    (done : sourceOf id path content = .ok source) (holds : Source → Prop) (nothing : holds ⟨.empty id, [], path⟩)
    (push : ∀ words, Lexer.tokens path content = .ok words → ∀ token ∈ words, ∀ stream rest,
      holds ⟨stream, rest.reverse, path⟩ →
      holds ⟨(stream.push token).2, (if token.kind.isTrivia then rest else (stream.push token).1 :: rest).reverse,
      path⟩) :
    holds source := by
  obtain ⟨words, found, rfl⟩ := sourceOf_done done
  exact List.foldlRecOn (motive := fun laid : TokenStream × List Handle => holds ⟨laid.1, laid.2.reverse, path⟩) words _
    nothing fun laid kept token member => push words found token member laid.1 laid.2 kept

theorem sourceOf_fresh {id : ChainId} {path : Option String} {content : Bytes} {source : Source}
    (done : sourceOf id path content = .ok source) : source.Fresh id :=
  sourceOf_holds done (Source.Fresh · id) ⟨⟨TokenStream.sound_empty id, rfl⟩, rfl, List.nil_sublist _, by simp⟩
    fun _ _ token _ _ _ fresh => fresh.push token

theorem Source.Fresh.place {source : Source} {id : ChainId} {scene : Scene} {s : State} (fresh : source.Fresh id)
    (same : s.source = source) (own : scene.id = id) (room : scene.nextId = id + 1) (next : s.nextId = id + 1)
    (imports : s.imports = scene.imports) (rules : s.rules = scene.rules) (strings : s.strings = scene.strings) :
    InPlace scene [] [] s where
  tidy := same ▸ fresh.lone.tidy
  id := by rw [same, own, fresh.named]
  listed := same ▸ fresh.listed
  chain := by simpa [same, own] using fresh.chain
  ids := by simp [same, own, room, fresh.lone.ids, fresh.named]
  nextId := next.trans room.symm
  imports := imports
  rules := rules
  strings := strings

/-! ### Items -/

namespace Piece

def import? : Piece → Option Import
  | imported i => some i
  | _ => none

def rule? : Piece → Option Rule
  | ruled rule => some rule
  | _ => none

/-- Rows of an import or a rule; the tokens of a file that is included are those of its own pieces. -/
def rows : Piece → List (List Handle)
  | imported i => [i.row]
  | ruled rule => [rule.row]
  | opened .. => []

/-- The tokens of a piece are in one stream, and those of a rule are in order. -/
structure Sorted (piece : Piece) : Prop where
  chain : ∀ row ∈ piece.rows, ∃ id, ∀ h ∈ row, h.chain = id
  filed : ∀ rule, piece.rule? = some rule → rule.Filed

end Piece

def importsOf (pieces : List Piece) : List Import := pieces.filterMap Piece.import?

def rulesOf (pieces : List Piece) : List Rule := pieces.filterMap Piece.rule?

def rowsOf (pieces : List Piece) : List (List Handle) := pieces.flatMap Piece.rows

theorem rowsOf_perm (pieces : List Piece) :
    (rowsOf pieces).Perm ((importsOf pieces).map Import.row ++ (rulesOf pieces).map Rule.row) := by
  induction pieces with
  | nil => exact .refl _
  | cons piece rest ih =>
    cases piece with
    | imported i => exact ih.cons _
    | ruled rule => exact (ih.cons _).trans List.perm_middle.symm
    | opened => exact ih

@[simp] theorem importsOf_append (pieces more : List Piece) :
    importsOf (pieces ++ more) = importsOf pieces ++ importsOf more :=
  List.filterMap_append

@[simp] theorem rulesOf_append (pieces more : List Piece) : rulesOf (pieces ++ more) = rulesOf pieces ++ rulesOf more :=
  List.filterMap_append

@[simp] theorem rowsOf_append (pieces more : List Piece) : rowsOf (pieces ++ more) = rowsOf pieces ++ rowsOf more :=
  List.flatMap_append

/-- The scene after some pieces were read. -/
def Scene.after (scene : Scene) (pieces : List Piece) (nextId : ChainId)
    (strings : NameTrie StringDefinition) : Scene :=
  { scene with imports := scene.imports ++ importsOf pieces, rules := scene.rules ++ rulesOf pieces, nextId, strings }

private theorem Scene.after_after (scene : Scene) (pieces more : List Piece) (nextId nextId' : ChainId)
    (strings strings' : NameTrie StringDefinition) : (scene.after pieces nextId strings).after more nextId' strings' =
    scene.after (pieces ++ more) nextId' strings' := by
  simp [Scene.after]

variable {scene : Scene} {front : List Handle} {s between inner s' : State} {pieces more : List Piece}

/-- Some pieces were read behind what was read before. -/
structure Arrayed (scene : Scene) (front : List Handle) (pieces : List Piece) (s : State) : Prop where
  sorted : ∀ piece ∈ pieces, piece.Sorted
  place : ∃ nextId strings, InPlace (scene.after pieces nextId strings) (front ++ (rowsOf pieces).flatten) [] s

theorem Arrayed.append (nextId : ChainId) (strings : NameTrie StringDefinition)
    (sorted : ∀ piece ∈ pieces, piece.Sorted)
    (later : Arrayed (scene.after pieces nextId strings) (front ++ (rowsOf pieces).flatten) more s) :
    Arrayed scene front (pieces ++ more) s where
  sorted piece member := (List.mem_append.mp member).elim (sorted piece) (later.sorted piece)
  place := by
    obtain ⟨nextId', strings', place⟩ := later.place
    refine ⟨nextId', strings', ?_⟩
    rw [Scene.after_after] at place
    simpa using place

theorem importDirective_reads : Ensures (InPlace scene front []) importDirective fun _ s => ∃ more : List Import,
    (∀ i ∈ more, (Piece.imported i).Sorted) ∧
      InPlace { scene with imports := scene.imports ++ more } (front ++ (more.map Import.row).flatten) [] s := by
  refine (expect_reads _).then fun keyword => (expect_reads _).then fun name => (textOf_reads name).then fun text => ?_
  refine .bind .get fun st => ?_
  dsimp only
  split
  next imported _ =>
    refine .modify ?_
    rintro s ⟨rfl, place⟩
    split_ifs
    · have shorter : InPlace _ _ [] st := (reading _).shrink (List.nil_sublist _) place
      exact ⟨[], by simp, by simpa using { shorter with }⟩
    · have passed : InPlace _ (front ++ [keyword, name]) [] st := (reading _).pass place
      refine ⟨[⟨keyword, name, imported⟩], ?_, { passed with imports := congrArg (· ++ _) passed.imports }⟩
      rintro _ (_ | ⟨_, ⟨⟩⟩)
      exact ⟨List.forall_mem_singleton.mpr ⟨_, fun h member => place.chain h (List.mem_append_left _ member)⟩, nofun⟩
  next => exact .never (never_fail _ _)

theorem directive_reads :
    Ensures (InPlace scene front []) directive fun d => InPlace scene front [d.keyword, d.token] := by
  refine (expect_reads _).then fun keyword => (expect_reads _).then fun token =>
    (textOf_reads token).then fun text => ?_
  exact get_reads.then fun _ => .pure fun _ place => place

/-- The tokens of an included file are put where the directive stands. -/
theorem InPlace.rejoin {keyword token : Handle} {nextId' : ChainId} {strings' strings'' : NameTrie StringDefinition}
    (place : InPlace scene front [keyword, token] s)
    (below : InPlace (Scene.after ⟨s.nextId, s.nextId + 1, s.imports, s.rules, strings'⟩ pieces nextId' strings'')
    (rowsOf pieces).flatten [] inner) :
    s.source.tokens.attach keyword inner.source.tokens = .ok (s.rejoin keyword inner).source.tokens ∧
      InPlace (scene.after pieces nextId' strings'') (front ++ (rowsOf pieces).flatten) []
      (s.rejoin keyword inner) := by
  have next : s.nextId = scene.nextId := place.nextId
  have apart : s.source.tokens.ids.Disjoint inner.source.tokens.ids := fun id here there =>
    Nat.not_lt.mpr (below.ids id there).1 (next ▸ (place.ids id here).2)
  have own : keyword.chain = s.source.tokens.chain.id := (place.chain keyword (by simp)).trans place.id.symm
  have listed : (front ++ keyword :: (token :: s.source.rest)).Sublist s.source.tokens.code := place.listed
  obtain ⟨tokens, done, tidy, same, ids, code⟩ := place.tidy.attach below.tidy apart own listed
  have joined : (s.rejoin keyword inner).source.tokens = tokens := by simp [State.rejoin, done, Except.toOption]
  -- The identities of the file come after those that there were before.
  have later : s.nextId ≤ nextId' := by
    obtain ⟨low, high⟩ := below.ids _ inner.source.tokens.id_mem_ids
    exact Nat.le_of_lt (Nat.lt_of_le_of_lt low high)
  have earlier : scene.id ≤ s.nextId := by
    obtain ⟨low, high⟩ := place.ids _ s.source.tokens.id_mem_ids
    exact Nat.le_of_lt (Nat.lt_of_le_of_lt low (next ▸ high))
  refine ⟨joined ▸ done, {
    tidy := joined ▸ tidy
    id := joined ▸ same.trans place.id
    listed := ?_
    chain := fun h member => place.chain h (List.mem_append_right _ member)
    ids := fun id member => ?_
    nextId := below.nextId
    imports := ?_
    rules := ?_
    strings := below.strings }⟩
  · have dropped := (List.sublist_cons_self token s.source.rest).append_left (rowsOf pieces).flatten
    have whole := (dropped.append_left front).trans
      (code (rowsOf pieces).flatten ((List.sublist_append_left _ inner.source.rest).trans
        (by simpa using below.listed)))
    rw [joined]
    simpa using whole
  · rw [joined] at member
    rcases ids id member with here | there
    · obtain ⟨low, high⟩ := place.ids id here
      exact ⟨low, Nat.lt_of_lt_of_le (next ▸ high) later⟩
    · obtain ⟨low, high⟩ := below.ids id there
      exact ⟨Nat.le_trans earlier low, high⟩
  · show inner.imports = scene.imports ++ _
    rw [below.imports, ← place.imports]
    rfl
  · show inner.rules = scene.rules ++ _
    rw [below.rules, ← place.rules]
    rfl

theorem State.Opens.place {d : Directive} {place : FileTree.Place} {content : Bytes} {source : Source}
    (opens : s.Opens d place content source) : InPlace ⟨s.nextId, s.nextId + 1, s.imports, s.rules, s.strings⟩ [] []
    (s.enter source place) :=
  (sourceOf_fresh opens.lexed).place rfl rfl rfl rfl rfl rfl rfl

theorem Source.Fresh.first {source : Source} {id : ChainId} (fresh : source.Fresh id) {settings : Settings}
    {tree : FileTree} {opened : List FileTree.Place} : InPlace ⟨id, id + 1, [], [], {}⟩ [] []
    (.first settings tree source (id + 1) opened) :=
  fresh.place rfl rfl rfl rfl rfl rfl rfl

/-- The pieces of a course stand in the source in the order in which they were read. -/
theorem Course.arrayed (course : Course s pieces s') :
    ∀ {scene front}, InPlace scene front [] s → Arrayed scene front pieces s' := by
  induction course with
  | done s =>
    exact fun {scene front} place =>
      ⟨by simp, scene.nextId, scene.strings, by simpa [Scene.after, importsOf, rulesOf, rowsOf] using place⟩
  | @imported s between s' pieces run rest ih =>
    intro scene front place
    obtain ⟨more, sorted, after⟩ := importDirective_reads s () between run place
    have new : between.imports.drop s.imports.length = more := by rw [after.imports, place.imports, List.drop_left]
    have imports : importsOf (more.map .imported) = more := by
      simp [importsOf, List.filterMap_map, Function.comp_def, Piece.import?]
    have rules : rulesOf (more.map .imported) = [] := by
      simp [rulesOf, List.filterMap_map, Function.comp_def, Piece.rule?]
    have rows : rowsOf (more.map .imported) = more.map Import.row := by
      rw [rowsOf, List.flatMap_map, List.map_eq_flatMap]
      rfl
    rw [new]
    refine .append scene.nextId scene.strings (by simpa using sorted) (ih ?_)
    simpa [Scene.after, imports, rules, rows] using after
  | @ruled s between s' pieces rule run rest ih =>
    intro scene front place
    obtain ⟨filed, after⟩ := rule_reads s rule between run place
    have passed : InPlace { scene with strings := {} } (front ++ rule.row) [] between := (reading _).pass after
    refine .append scene.nextId {} (show ∀ piece ∈ [Piece.ruled rule], piece.Sorted from ?_) (ih ?_)
    · refine List.forall_mem_singleton.mpr ⟨List.forall_mem_singleton.mpr ⟨_, fun h member =>
        after.chain h (List.mem_append_left _ member)⟩, ?_⟩
      rintro _ ⟨⟩
      exact filed
    · simp only [rowsOf, Piece.rows, List.flatMap_cons, List.flatMap_nil, List.append_nil, List.flatten_singleton]
      exact { passed with
        imports := passed.imports.trans (List.append_nil _).symm
        rules := congrArg (· ++ [rule]) passed.rules }
  | @skipped s between s' pieces d _ run located shut again rest ih =>
    intro scene front place
    have after := directive_reads s d between run place
    exact ih ((reading _).shrink (List.nil_sublist _) after)
  | @opened s between inner s' below pieces d place content source run opens inside rest ihInside ihRest =>
    intro scene front before
    have after := directive_reads s d between run before
    have found := ihInside opens.place
    obtain ⟨nextId, strings, filled⟩ := found.place
    have joined := (after.rejoin (by simpa using filled)).2
    refine .append nextId strings (show ∀ piece ∈ .opened d between.nextId place :: below,
      piece.Sorted from ?_) (ihRest ?_)
    · exact List.forall_mem_cons.mpr ⟨⟨nofun, nofun⟩, found.sorted⟩
    · exact joined

theorem readSource_ordered {settings : Settings} {tree : FileTree} {source : Source} {id : ChainId}
    {opened : List FileTree.Place} {file : RuleFile} (fresh : source.Fresh id)
    (done : readSource settings tree source (id + 1) opened = .ok file) : file.Ordered := by
  obtain ⟨pieces, last, course, rfl⟩ := readSource_course done
  obtain ⟨sorted, _, _, final⟩ := course.arrayed fresh.first
  have imports : last.imports = importsOf pieces := final.imports
  have rules : last.rules = rulesOf pieces := final.rules
  have rows : (rowsOf pieces).Perm (last.imports.map Import.row ++ last.rules.map Rule.row) := by
    rw [imports, rules]
    exact rowsOf_perm pieces
  refine ⟨⟨final.tidy, ⟨rowsOf pieces, rows, ?_⟩, fun row member => ?_⟩, fun rule member => ?_⟩
  · exact (List.sublist_append_left _ _).trans final.listed
  · obtain ⟨piece, among, own⟩ := List.mem_flatMap.mp (rows.mem_iff.mpr member)
    exact (sorted piece among).chain row own
  · have listed : rule ∈ rulesOf pieces := rules ▸ member
    obtain ⟨piece, among, own⟩ := List.mem_filterMap.mp listed
    exact (sorted piece among).filed rule own

end YaraRules.Grammar

namespace YaraRules.RuleFile

theorem ofSource_ordered {settings : Settings} {tree : FileTree} {id : ChainId} {content : Bytes} {file : RuleFile}
    (done : ofSource settings tree id content = .ok file) : file.Ordered := by
  unfold ofSource at done
  cases found : Grammar.sourceOf id none content with
  | error e => simp [found, bind, Except.bind] at done
  | ok source =>
    rw [found] at done
    exact Grammar.readSource_ordered (Grammar.sourceOf_fresh found) done

theorem ofPath_ordered {settings : Settings} {tree : FileTree} {id : ChainId} {path : String} {file : RuleFile}
    (done : ofPath settings tree id path = .ok file) : file.Ordered := by
  unfold ofPath at done
  cases read : tree.read path with
  | error fault =>
    rw [read] at done
    cases done
  | ok content =>
    rw [read] at done
    cases found : Grammar.sourceOf id (some path) content with
    | error e => simp [found, bind, Except.bind] at done
    | ok source =>
      simp only [found] at done
      exact Grammar.readSource_ordered (Grammar.sourceOf_fresh found) done

end YaraRules.RuleFile
