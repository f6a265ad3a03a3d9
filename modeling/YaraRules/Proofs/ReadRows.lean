import YaraRules.Grammar.Rule
import YaraRules.Proofs.CodeMoves
import YaraRules.Proofs.RowSteps
import YaraRules.Proofs.RuleRows

/-! What is read from a source. The tokens of a node are read in the order in which it
holds them; tokens change their kinds and literals while they are read, and none moves. -/

namespace YaraRules.Grammar

open TokenStream (Tidy Rewrites)

/-! ### Where a step has branched -/

/-- What is read of an element of an array or a dictionary behind its bracket. -/
def elementEnd (self : Readers) (array : Expr) (opening : Handle) (symbol : Option Symbol) (expected : OperandClass)
    (container : String) : Parse Expr := do
  let index ← self .disjunction
  if !expected.accepts index.type then
    let tokens ← tokens
    fail opening (.invalidAccess (array.text tokens ++ "[" ++ index.text tokens ++ "]")
      ("a valid index for " ++ container))
  let closing ← expect .closeBracket
  return .index ((symbol.bind Symbol.elementType?).getD .undefined) array opening index closing

/-- What is read of a jump behind its bounds. -/
def jumpEnd (opening : Handle) (low dash high : Option Handle) : Parse HexUnit := do
  if low.isNone && dash.isNone then unexpected "integer or '-'"
  let closing ← expect .hexJumpClose
  let tokens ← tokens
  match integerAt? tokens low, integerAt? tokens high with
  | some l, some h => if h < l then fail opening (.invalidHexJump l h)
  | _, _ => pure ()
  return .jump opening low dash high closing

/-! ### Rows in place -/

/-- What stays as it is while a part of a rule is read. -/
structure Scene where
  /-- Identity of the stream that is read. -/
  id : ChainId
  nextId : ChainId
  imports : List Import
  rules : List Rule
  strings : NameTrie StringDefinition

/-- A row was read behind others, and the tokens that are still to be read stand behind it. -/
structure InPlace (scene : Scene) (done row : List Handle) (s : State) : Prop where
  tidy : s.source.tokens.Tidy
  id : s.source.tokens.chain.id = scene.id
  listed : (done ++ (row ++ s.source.rest)).Sublist s.source.tokens.code
  chain : ∀ h ∈ row ++ s.source.rest, h.chain = scene.id
  ids : ∀ id ∈ s.source.tokens.ids, scene.id ≤ id ∧ id < scene.nextId
  nextId : s.nextId = scene.nextId
  imports : s.imports = scene.imports
  rules : s.rules = scene.rules
  strings : s.strings = scene.strings

def reading (scene : Scene) : Standing State where
  holds := InPlace scene
  shrink fewer place := { place with
    listed := ((fewer.append_right _).append_left _).trans place.listed
    chain := fun h member => place.chain h ((fewer.append_right _).subset member) }
  pass place := { place with
    listed := by simpa using place.listed
    chain := fun h member => place.chain h (List.mem_append_right _ (by simpa using member)) }
  join first place := { place with
    listed := by simpa using place.listed
    chain := fun h member => by
      rcases List.mem_append.mp (List.append_assoc _ _ _ ▸ member) with early | late
      · exact first.chain h (List.mem_append_left _ early)
      · exact place.chain h late }

/-- A step reads the row of its result. -/
abbrev Reads {α : Type} (scene : Scene) (before : List Handle) (step : Parse α) (row : α → List Handle) : Prop :=
  Lays (reading scene) before step row

variable {α β : Type} {scene : Scene}

/-- A step reads a row behind another one, and others follow. -/
theorem Reads.then {done before : List Handle} {step : Parse α} {next : α → Parse β} {row : α → List Handle}
    {last : β → State → Prop} (reads : Reads scene [] step row)
    (rest : ∀ a, Ensures (InPlace scene done (before ++ row a)) (next a) last) :
    Ensures (InPlace scene done before) (step >>= next) last :=
  .bind (fun s a s' run place => reads.behind before s a s' run done place) rest

/-! ### Elementary steps -/

theorem never_fail (h : Handle) (problem : Problem) : Never (fail h problem : Parse α) := by
  intro s a s' done
  cases done

theorem never_unexpected (expected : String) : Never (unexpected expected : Parse α) := by
  intro s a s' done
  obtain ⟨_, _, found, run⟩ := bind_done done
  cases found
  cases read : s.source.rest with
  | nil => simp only [read] at run; cases run
  | cons h rest => simp only [read] at run; cases run

theorem Reads.still {step : Parse α} (same : ∀ s a s', step s = .ok (a, s') → s' = s) :
    Reads scene [] step fun _ => [] :=
  fun s a s' done _ place => same s a s' done ▸ place

theorem tokens_reads : Reads scene [] tokens fun _ => [] := .still fun _ _ _ done => by cases done; rfl

theorem textOf_reads (h : Handle) : Reads scene [] (textOf h) fun _ => [] := .still fun _ _ _ done => by cases done; rfl

theorem locationOf_reads (h : Handle) : Reads scene [] (locationOf h) fun _ => [] :=
  .still fun _ _ _ done => by cases done; rfl

theorem get_reads : Reads scene [] (get : Parse State) fun _ => [] := .still fun _ _ _ done => by cases done; rfl

theorem peekAt_reads (n : Nat) : Reads scene [] (peekAt? n) fun _ => [] := .still fun _ _ _ done => by cases done; rfl

theorem peek_reads : Reads scene [] peek? fun _ => [] := peekAt_reads 0

theorem peekHandle_reads (n : Nat) : Reads scene [] (peekHandle? n) fun _ => [] :=
  .still fun _ _ _ done => by cases done; rfl

theorem remaining_reads : Reads scene [] remaining fun _ => [] := .still fun _ _ _ done => by cases done; rfl

/-- The next token is given, and the others are still to be read. -/
theorem advance_done {s s' : State} {h : Handle} (done : advance s = .ok (h, s')) :
    ∃ rest, s.source.rest = h :: rest ∧ s' = { s with source := { s.source with rest } } := by
  obtain ⟨_, _, found, run⟩ := bind_done done
  cases found
  cases read : s.source.rest with
  | nil =>
    simp only [read] at run
    exact absurd run (never_unexpected _ _ _ _)
  | cons first rest =>
    simp only [read] at run
    cases run
    exact ⟨rest, rfl, rfl⟩

theorem advance_reads : Reads scene [] advance fun h => [h] := by
  intro s h s' done front place
  obtain ⟨rest, read, rfl⟩ := advance_done done
  exact { place with
    listed := by simpa [read] using place.listed
    chain := by simpa [read] using place.chain }

/-- What is read and where it is put stays as it is. -/
theorem InPlace.aside {done row : List Handle} {s s' : State} (place : InPlace scene done row s)
    (source : s'.source = s.source) (nextId : s'.nextId = s.nextId) (imports : s'.imports = s.imports)
    (rules : s'.rules = s.rules) : InPlace { scene with strings := s'.strings } done row s' where
  tidy := source ▸ place.tidy
  id := source ▸ place.id
  listed := source ▸ place.listed
  chain := source ▸ place.chain
  ids := source ▸ place.ids
  nextId := nextId.trans place.nextId
  imports := imports.trans place.imports
  rules := rules.trans place.rules
  strings := rfl

theorem aside_reads {f : State → State} (same : ∀ s, (f s).source = s.source ∧ (f s).nextId = s.nextId ∧
    (f s).imports = s.imports ∧ (f s).rules = s.rules ∧ (f s).strings = s.strings) :
    Reads scene [] (modify f) fun _ => [] := by
  intro s u s' done front place
  cases done
  obtain ⟨source, nextId, imports, rules, strings⟩ := same s
  have moved := place.aside source nextId imports rules
  rwa [strings, place.strings] at moved

private theorem modifyTokens_reads {f : TokenStream → TokenStream}
    (kept : ∀ tokens, tokens.Tidy → (f tokens).chain.id = tokens.chain.id ∧ (f tokens).ids = tokens.ids ∧
      ∀ row, Rewrites tokens (f tokens) row row) :
    Reads scene [] (modifyTokens f) fun _ => [] := by
  intro s u s' done front place
  cases done
  obtain ⟨id, ids, rewrites⟩ := kept _ place.tidy
  have whole := rewrites (front ++ s.source.rest)
  exact { place with
    tidy := whole.tidy
    id := id.trans place.id
    listed := by simpa [State.onTokens] using whole.code [] [] (by simpa using place.listed)
    ids := fun id member => place.ids id (ids ▸ member) }

private theorem modify_kept {h : Handle} {f : Token → Token}
    (kept : ∀ token, TokenStream.NoBreak token.kind (f token).kind)
    (tokens : TokenStream) (tidy : tokens.Tidy) :
    (tokens.modify h f).chain.id = tokens.chain.id ∧ (tokens.modify h f).ids = tokens.ids ∧
      ∀ row, Rewrites tokens (tokens.modify h f) row row := by
  obtain ⟨_, alike⟩ := tidy.sound.modify_touched h f
  exact ⟨alike.id_eq, alike.ids_eq, fun row => tidy.modify h kept row⟩

theorem refine_reads {kind : TokenKind} (word : kind ≠ .newLine) (h : Handle) :
    Reads scene [] (refine h kind) fun _ => [] :=
  modifyTokens_reads (modify_kept fun _ => .inr word)

theorem setLiteral_reads (h : Handle) (literal : Literal) : Reads scene [] (setLiteral h literal) fun _ => [] :=
  modifyTokens_reads (modify_kept (f := fun token => { token with literal }) fun _ => .inl rfl)

theorem breakAfter_reads (h : Handle) (wanted : Bool) : Reads scene [] (breakAfter h wanted) fun _ => [] :=
  modifyTokens_reads (modify_kept (f := fun token => { token with breakAfter := token.breakAfter || wanted }) fun _ =>
    .inl rfl)

theorem expect_reads (kind : TokenKind) : Reads scene [] (expect kind) fun h => [h] :=
  .bind peek_reads fun _ => .ite (fun _ => advance_reads) fun _ => .never (never_unexpected _)

theorem accept_reads (kind : TokenKind) : Reads scene [] (accept? kind) Option.toList :=
  .bind peek_reads fun _ => .ite (fun _ => .bind advance_reads fun _ => .pure (by simp)) fun _ => .pure (.refl _)

theorem itemsWhile_reads {starts : TokenKind → Bool} {item : Parse α} {row : α → List Handle}
    (each : Reads scene [] item row) : ∀ bound, Reads scene []
    (itemsWhile starts item bound) fun items => items.flatMap row
  | 0 => .pure (.refl _)
  | bound + 1 => .bind peek_reads fun _ => .ite
    (fun _ => .bind each fun _ => .bind (itemsWhile_reads each bound) fun _ => .pure (by simp)) fun _ => .pure (.refl _)

theorem separated_reads {separator : TokenKind} {item : Parse α} {row : α → List Handle}
    (each : Reads scene [] item row) : ∀ bound, Reads scene []
    (separated separator item bound) fun items => items.flatMap row
  | 0 => .bind each fun _ => .pure (by simp)
  | bound + 1 => .bind each fun _ => .skip (accept_reads separator) fun next => by
    cases next with
    | none => exact .pure (by simp)
    | some _ => exact .bind (separated_reads each bound) fun _ => .pure (by simp)

theorem checkEscapes_reads (h : Handle) : Reads scene [] (checkEscapes h) fun _ => [] := by
  refine .bind tokens_reads fun tokens => ?_
  split
  · split
    · exact .pure (.refl _)
    · exact .bind (textOf_reads h) fun _ => .never (never_fail _ _)
  · exact .pure (.refl _)

theorem readRegexp_reads (h : Handle) : Reads scene [] (readRegexp h) fun _ => [] := by
  refine .bind (textOf_reads h) fun text => ?_
  split
  · exact .pure (.refl _)
  · exact .never (never_fail _ _)

/-! ### Hex strings -/

private theorem jumpEnd_reads (opening : Handle) (low dash high : Option Handle) :
    Reads scene ([opening] ++ low.toList ++ dash.toList ++ high.toList) (jumpEnd opening low dash high)
      HexUnit.handles := by
  unfold jumpEnd
  refine .guard (never_unexpected _) (.bind (expect_reads _) fun closing => .skip tokens_reads fun tokens => ?_)
  have last : Reads scene ([opening] ++ low.toList ++ dash.toList ++ high.toList ++ [closing])
      (pure (.jump opening low dash high closing)) HexUnit.handles := .pure (by simp [HexUnit.handles])
  dsimp only
  split
  · exact .guard (never_fail _ _) last
  · exact last

private theorem hexJump_reads : Reads scene [] hexJump HexUnit.handles := by
  refine .bind (expect_reads _) fun opening => .bind (accept_reads _) fun low => .bind (accept_reads _) fun dash => ?_
  cases dash with
  | some _ => exact .bind (accept_reads _) (jumpEnd_reads opening low _)
  | none =>
    exact .bind (show Reads scene [] (pure none) Option.toList from .pure (.refl _)) (jumpEnd_reads opening low none)

private theorem hexUnits_reads : ∀ bound, Reads scene [] (hexUnits bound) HexUnit.handlesAll
  | 0 => .pure (.refl _)
  | bound + 1 => by
    refine .bind peek_reads fun next => ?_
    split
    · refine .bind advance_reads fun token => .skip (textOf_reads token) fun text => .guard (never_fail _ _) ?_
      exact .bind (hexUnits_reads bound) fun units => .pure (by simp [HexUnit.handlesAll, HexUnit.handles])
    · refine .bind hexJump_reads fun jump => .bind (hexUnits_reads bound) fun units => ?_
      exact .pure (by simp [HexUnit.handlesAll])
    · have alternative : Reads scene [] (do
          let units ← hexUnits bound
          if units.isEmpty then unexpected "hex byte" else return units) HexUnit.handlesAll :=
        .bind (hexUnits_reads bound) fun units => .ite (fun _ => .never (never_unexpected _)) fun _ => .pure (.refl _)
      refine .bind advance_reads fun opening => .bind (separated_reads alternative bound) fun alternatives => ?_
      refine .guard (never_unexpected _) (.bind (expect_reads _) fun closing => ?_)
      refine .bind (hexUnits_reads bound) fun units => .pure ?_
      simp [HexUnit.handlesAll, HexUnit.handles, HexUnit.handlesAmong_eq]
    · exact .pure (.refl _)

private theorem hexString_reads : Reads scene [] hexString HexString.handles := by
  refine .bind (expect_reads _) fun opening => .skip remaining_reads fun bound => ?_
  refine .bind (hexUnits_reads bound) fun units => .guard (never_unexpected _) ?_
  refine .bind (expect_reads _) fun closing => .skip tokens_reads fun tokens => ?_
  exact .skip (breakAfter_reads _ _) fun _ => .pure (by simp [HexString.handles])

/-! ### Modifiers -/

private theorem xorKey_reads (token : Handle) : Reads scene [] (xorKey token) fun _ => [] := by
  refine .bind tokens_reads fun tokens => ?_
  split
  · exact .ite (fun _ => .pure (.refl _)) fun _ => .never (never_fail _ _)
  · exact .never (never_fail _ _)

private theorem xorModifier_reads (first : Handle) :
    Reads scene [first] (xorModifier first) fun m => spanRow first m.2 := by
  refine .bind (accept_reads _) fun opening => ?_
  cases opening with
  | none => exact .pure (by simp [spanRow_self])
  | some opening =>
    refine .bind (expect_reads _) fun token => .bind (xorKey_reads token) fun low => ?_
    refine .bind (accept_reads _) fun dash => ?_
    have rest (before : List Handle) (high : UInt8) : Reads scene ([first] ++ before) (do
        let closing ← expect .closeParen
        return (ModifierKind.xor (some (low, high)), closing)) fun m => spanRow first m.2 := by
      refine .bind (expect_reads _) fun closing => .pure ((spanRow_sublist first closing).trans ?_)
      simp
    cases dash with
    | none => simpa using rest [opening, token] low
    | some dash =>
      refine .bind (refine_reads (by decide) dash) fun _ => .bind (expect_reads _) fun token' => ?_
      refine .bind (xorKey_reads token') fun high => .guard (never_fail _ _) ?_
      simpa using rest [opening, token, dash, token'] high

private theorem alphabet_reads (first : Handle) : Reads scene [first] (alphabet first) fun m => spanRow first m.2 := by
  refine .bind (accept_reads _) fun opening => ?_
  cases opening with
  | none => exact .pure (by simp [spanRow_self])
  | some opening =>
    refine .bind (expect_reads _) fun token => .bind (checkEscapes_reads token) fun _ => .bind tokens_reads
      fun tokens => ?_
    refine .guard (never_fail _ _) (.bind (expect_reads _) fun closing =>
      .pure ((spanRow_sublist first closing).trans ?_))
    simp

private theorem modifier_reads (kind : TokenKind) : Reads scene [] (modifier kind) StringModifier.row := by
  refine .bind advance_reads fun first => ?_
  have plain (kind : ModifierKind) : Reads scene [first] (pure ⟨kind, first, first⟩) StringModifier.row :=
    .pure (by simp [StringModifier.row, spanRow_self])
  dsimp only
  split
  · exact plain _
  · exact plain _
  · exact plain _
  · exact plain _
  · exact .skip (refine_reads (by decide) first) fun _ => plain _
  · exact .seq (xorModifier_reads first) fun _ => .pure (.refl _)
  · exact .seq (alphabet_reads first) fun _ => .pure (.refl _)
  · exact .seq (alphabet_reads first) fun _ => .pure (.refl _)
  · exact .never (never_unexpected _)

private theorem checkModifier_reads (content : StringContent) (before : List StringModifier) (m : StringModifier) :
    Reads scene [] (checkModifier content before m) fun _ => [] := by
  refine .guard (never_fail _ _) (.forM (fun other => ?_) before)
  exact .ite (fun _ => .never (never_fail _ _)) fun _ => .ite (fun _ => .never (never_fail _ _))
    fun _ => .pure (.refl _)

private theorem modifiers_reads (content : StringContent) : ∀ bound before,
    Reads scene (before.flatMap StringModifier.row)
    (modifiers content bound before) fun ms => ms.flatMap StringModifier.row
  | 0, _ => .pure (.refl _)
  | bound + 1, before => by
    refine .skip peek_reads fun next => ?_
    cases next with
    | none => exact .pure (.refl _)
    | some kind =>
      refine .ite (fun _ => ?_) fun _ => .pure (.refl _)
      refine .bind (modifier_reads kind) fun m => .skip (checkModifier_reads content before m) fun _ => ?_
      simpa using modifiers_reads content bound (before ++ [m])

/-! ### Definitions -/

private theorem stringContent_reads : Reads scene [] stringContent StringContent.handles := by
  refine .bind peek_reads fun next => ?_
  split
  · exact .bind advance_reads fun token => .skip (checkEscapes_reads token) fun _ => .pure (.refl _)
  · exact .bind hexString_reads fun string => .pure (.refl _)
  · exact .bind advance_reads fun token => .skip (readRegexp_reads token) fun _ => .pure (.refl _)
  · exact .never (never_unexpected _)

theorem stringDefinition_reads : Reads scene [] stringDefinition StringDefinition.row := by
  refine .bind (expect_reads _) fun id => .skip (refine_reads (by decide) id) fun _ => ?_
  refine .bind (expect_reads _) fun assign => .bind stringContent_reads fun content => ?_
  refine .skip remaining_reads fun bound => .bind (modifiers_reads content bound []) fun modifiers => ?_
  exact .pure (by simp [StringDefinition.row])

end YaraRules.Grammar
