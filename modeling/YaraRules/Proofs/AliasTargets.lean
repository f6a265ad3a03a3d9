import YaraRules.Proofs.AttainedForms
import YaraRules.Proofs.CopiedConditions
import YaraRules.Proofs.Outcomes

/-! Where aliases lead. In a file that was read they lead to the names of rules and strings, and
a name is no alias itself. An edit makes no alias lead elsewhere: what is built has none, a copy in
a condition leads where the original does, and before a name is erased its aliases become copies.
So it takes one step to follow an alias, however the file was edited, as long as copies are put
back while the names that they lead to are there. A copy that outlives such a name dangles. -/

namespace YaraRules

open TokenStream (Tidy Plain Targets Echoes Copies plain_written)

/-- Tokens, those among them that define names, and an identity that is free for a stream. -/
structure Ground where
  tokens : TokenStream
  definitions : List Handle
  nextId : ChainId

namespace Ground

/-- Aliases lead to definitions, and no stream has the free identity or a later one. -/
structure Aimed (g : Ground) : Prop where
  targets : ∀ target, g.tokens.Targets target → target ∈ g.definitions
  ids : ∀ id ∈ g.tokens.ids, id < g.nextId

/-- Aliases lead nowhere new but where new ones may lead, and what they still or may lead to is defined if it
was before. -/
structure Follows (lent : Handle → Prop) (g g' : Ground) : Prop where
  tidy : g'.tokens.Tidy
  tokens : g.tokens.Leans lent g'.tokens
  definitions : ∀ target ∈ g.definitions, g'.tokens.Targets target ∨ lent target → target ∈ g'.definitions
  later : g.nextId ≤ g'.nextId

variable {lent : Handle → Prop} {g middle g' : Ground}

theorem Follows.refl (tidy : g.tokens.Tidy) : g.Follows lent g :=
  ⟨tidy, .refl _, fun _ member _ => member, Nat.le_refl _⟩

theorem Follows.trans (first : g.Follows lent middle) (second : middle.Follows lent g') : g.Follows lent g' where
  tidy := second.tidy
  tokens := first.tokens.trans second.tokens
  definitions target member aimed := by
    have before : middle.tokens.Targets target ∨ lent target := aimed.elim (second.tokens.targets target) .inr
    exact second.definitions target (first.definitions target member before) aimed
  later := Nat.le_trans first.later second.later

theorem Aimed.follow (aimed : g.Aimed) (lends : ∀ target, lent target → target ∈ g.definitions)
    (follows : g.Follows lent g') : g'.Aimed where
  targets target leads := by
    have before : target ∈ g.definitions :=
      (follows.tokens.targets target leads).elim (aimed.targets target) (lends target)
    exact follows.definitions target before (.inl leads)
  ids id member := Nat.lt_of_lt_of_le (aimed.ids id (follows.tokens.ids member)) follows.later

end Ground

def RuleScope.ground (scope : RuleScope) : Ground := ⟨scope.tokens, scope.rule.definitions, scope.nextId⟩

namespace RuleFile

/-- The tokens that give rules and strings their names. -/
def definitions (file : RuleFile) : List Handle := file.rules.flatMap Rule.definitions

def ground (file : RuleFile) : Ground := ⟨file.tokens, file.definitions, file.nextId⟩

end RuleFile

/-! ### Steps of edits -/

/-- However a change ends, aliases lead nowhere new but where new ones may lead. -/
def Trails {σ α : Type} (lent : Handle → Prop) (ground : σ → Ground) (change : ExceptT EditError (StateM σ) α) : Prop :=
  Relates (fun s s' => (ground s).tokens.Tidy → (ground s).Follows lent (ground s')) change

namespace Trails

variable {σ α β : Type} {lent : Handle → Prop} {ground : σ → Ground} {change : ExceptT EditError (StateM σ) α}
    {next : α → ExceptT EditError (StateM σ) β}

protected theorem pure (a : α) : Trails lent ground (pure a) := Relates.pure (fun _ tidy => .refl tidy) a

theorem throw (e : EditError) : Trails lent ground (throw e : ExceptT EditError (StateM σ) α) :=
  Relates.throw (fun _ tidy => .refl tidy) e

theorem bind (first : Trails lent ground change) (rest : ∀ a, Trails lent ground (next a)) :
    Trails lent ground (change >>= next) :=
  Relates.bind (fun before after tidy => (before tidy).trans (after (before tidy).tidy)) first rest

theorem get_bind {next : σ → ExceptT EditError (StateM σ) β} (rest : ∀ s, Trails lent ground (next s)) :
    Trails lent ground (get >>= next) :=
  Relates.get_bind rest

/-- What is noted beside the tokens changes, and definitions stay. -/
theorem modify {f : σ → σ} (tokens : ∀ s, (ground (f s)).tokens = (ground s).tokens)
    (definitions : ∀ s, (ground s).definitions ⊆ (ground (f s)).definitions)
    (later : ∀ s, (ground s).nextId ≤ (ground (f s)).nextId) : Trails lent ground
    (modify f : ExceptT EditError (StateM σ) PUnit) :=
  Relates.modify fun s tidy => ⟨tokens s ▸ tidy, tokens s ▸ .refl _, fun _ member _ => definitions s member, later s⟩

theorem forIn {change : α → ExceptT EditError (StateM σ) β} (each : ∀ a, Trails lent ground (change a))
    (items : List α) :
    Trails lent ground (forIn items PUnit.unit fun a _ => do let _ ← change a; return ForInStep.yield PUnit.unit) :=
  Relates.forIn (fun _ tidy => .refl tidy) (fun before after tidy =>
    (before tidy).trans (after (before tidy).tidy)) each items

theorem guard {c : Prop} [Decidable c] {e : EditError} {other : ExceptT EditError (StateM σ) β}
    (rest : Trails lent ground other) : Trails lent ground (if c then MonadExcept.throw e >>= next else other) :=
  Relates.guard (fun _ tidy => .refl tidy) rest

end Trails

namespace TokenEdit

/-- However the change ends, tokens that were in order still are, and aliases lead nowhere new but where new
ones may lead. -/
def Leans {α : Type} (lent : Handle → Prop) (edit : TokenEdit α) : Prop :=
  Relates (fun s s' => s.Tidy → s'.Tidy ∧ TokenStream.Leans lent s s') edit

variable {lent : Handle → Prop}

private theorem apply_leans {α : Type} {f : TokenStream → Except TokenStream.Error (α × TokenStream)}
    (step : ∀ s a s', s.Tidy → f s = .ok (a, s') → s'.Tidy ∧ TokenStream.Leans lent s s') : Leans lent (apply f) := by
  intro s result s' ends tidy
  rw [Ends, apply_run] at ends
  cases run : f s with
  | error e =>
    rw [run] at ends
    cases ends
    exact ⟨tidy, .refl s⟩
  | ok done =>
    rw [run] at ends
    cases ends
    exact step s _ _ tidy run

variable {token : Token} (lends : ∀ target, token.literal.aliasTarget? = some target → lent target)
include lends

theorem insertBefore_leans (before : Handle) : Leans lent (insertBefore before token) :=
  apply_leans fun _ _ _ tidy done => ⟨(tidy.insertBefore_spots done).1, tidy.insertBefore_leans lends done⟩

theorem insertAfter_leans (before : Handle) : Leans lent (insertAfter before token) :=
  apply_leans fun _ _ _ tidy done => ⟨(tidy.insertAfter_spots done).1, tidy.insertAfter_leans lends done⟩

private theorem insertAt_leans (anchor : Option Handle) : Leans lent (insertAt anchor token) := by
  cases anchor with
  | some before => exact insertBefore_leans lends before
  | none =>
    intro s result s' ends tidy
    cases ends
    exact ⟨(tidy.push token).1, tidy.push_leans lends⟩

omit lends

private theorem erase_leans (first last : Handle) : Leans lent (erase first last) :=
  apply_leans fun s a s' tidy run => by
    have done := succeeds_erase (apply_succeeds run)
    exact ⟨(tidy.erase_spots done).1, (tidy.erase_follows done).leans⟩

private theorem eraseLine_leans (first last : Handle) : Leans lent (eraseLine first last) :=
  Relates.get_bind fun _ => erase_leans first _

private theorem moveAll_leans {source : TokenStream} (drafted : source.Drafted) (nonempty : source.view ≠ [])
    (before : Option Handle) : Leans lent (moveAll before source) :=
  apply_leans fun s names s' tidy run => by
    obtain ⟨left, done⟩ := succeeds_moveAll (apply_succeeds run)
    obtain ⟨ids, targets⟩ :=
      tidy.moveAll_targets drafted.toLone nonempty (fun _ aimed => absurd aimed drafted.targets) done
    refine ⟨(tidy.moveAll drafted.toLone nonempty done).1, ids, fun target aimed => ?_⟩
    exact .inl ((targets target aimed).resolve_right drafted.targets)

end TokenEdit

namespace RuleEdit

open TokenEdit (insertBefore_leans insertAfter_leans erase_leans eraseLine_leans)

variable {lent : Handle → Prop}

private theorem onTokens_trails {α : Type} {edit : TokenEdit α} (leans : TokenEdit.Leans lent edit) :
    Trails lent RuleScope.ground (onTokens edit) := by
  intro scope result scope' ends tidy
  rw [Ends, onTokens_run] at ends
  cases ends
  obtain ⟨tidy', leans⟩ := leans scope.tokens _ _ rfl tidy
  exact ⟨tidy', leans, fun _ member _ => member, Nat.le_refl _⟩

private theorem modifyRule_trails {f : Rule → Rule} (same : ∀ rule, (f rule).definitions = rule.definitions) :
    Trails lent RuleScope.ground (modifyRule f) :=
  .modify (fun _ => rfl) (fun scope => by simp [RuleScope.ground, same]) fun _ => Nat.le_refl _

private theorem addModifier_trails (kind : TokenKind) : Trails lent RuleScope.ground (addModifier kind) := by
  refine .get_bind fun scope => .bind (onTokens_trails (insertBefore_leans plain_written.lends _)) fun added => ?_
  split
  · refine .bind (onTokens_trails (erase_leans _ _))
      fun _ => .bind (onTokens_trails (insertBefore_leans plain_written.lends _)) fun _ => ?_
    exact modifyRule_trails fun _ => rfl
  · exact modifyRule_trails fun _ => rfl

private theorem setModifier_trails (kind : TokenKind) (wanted : Bool) :
    Trails lent RuleScope.ground (setModifier kind wanted) := by
  refine .get_bind fun scope => ?_
  dsimp only
  split
  · exact addModifier_trails kind
  · refine .bind (modifyRule_trails fun _ => rfl) fun _ => ?_
    exact .bind (.forIn (fun _ => onTokens_trails (erase_leans _ _)) _) fun _ => .pure _
  · exact .pure _

private theorem tagAnchor_trails : Trails lent RuleScope.ground tagAnchor := by
  refine .get_bind fun scope => ?_
  dsimp only
  split
  · exact .pure _
  · exact .bind (onTokens_trails (insertAfter_leans plain_written.lends _))
      fun _ => .bind (modifyRule_trails fun _ => rfl) fun _ => .pure _

private theorem addTag_trails (tag : String) : Trails lent RuleScope.ground (addTag tag) := by
  refine .get_bind fun scope => .guard (.guard (.bind tagAnchor_trails fun _ => ?_))
  exact .bind (onTokens_trails (insertAfter_leans plain_written.lends _)) fun _ => modifyRule_trails fun _ => rfl

private theorem removeTag_trails (tag : String) : Trails lent RuleScope.ground (removeTag tag) := by
  refine .get_bind fun scope => ?_
  dsimp only
  split
  · exact .pure _
  · refine .bind (modifyRule_trails fun _ => rfl) fun _ => .bind (onTokens_trails (erase_leans _ _)) fun _ => ?_
    split
    · exact .bind (modifyRule_trails fun _ => rfl) fun _ => .bind (onTokens_trails (erase_leans _ _)) fun _ => .pure _
    · exact .pure _

private theorem metaAnchor_trails : Trails lent RuleScope.ground metaAnchor := by
  refine .get_bind fun scope => ?_
  dsimp only
  split
  · exact .pure _
  · exact .pure _
  · refine .bind (onTokens_trails (insertBefore_leans plain_written.lends _)) fun _ => ?_
    refine .bind (onTokens_trails (insertAfter_leans plain_written.lends _)) fun _ => ?_
    exact .bind (modifyRule_trails fun _ => rfl) fun _ => .pure _

private theorem addMeta_trails (key : String) {value : Literal} (lends : ∀ target, value.aliasTarget? = some target →
    lent target) : Trails lent RuleScope.ground (addMeta key value) := by
  refine .guard (.bind metaAnchor_trails fun _ => ?_)
  refine .bind (onTokens_trails (insertAfter_leans plain_written.lends _)) fun _ => ?_
  refine .bind (onTokens_trails (insertAfter_leans plain_written.lends _)) fun _ => ?_
  exact .bind (onTokens_trails (insertAfter_leans lends _)) fun _ => modifyRule_trails fun _ => rfl

private theorem eraseHeader_trails (header : Option Section) : Trails lent RuleScope.ground (eraseHeader header) := by
  cases header with
  | none => exact .pure _
  | some header => exact onTokens_trails (eraseLine_leans _ _)

private theorem removeMeta_trails (key : String) : Trails lent RuleScope.ground (removeMeta key) := by
  refine .get_bind fun scope => ?_
  refine .bind (modifyRule_trails fun _ => rfl)
    fun _ => .bind (.forIn (fun _ => onTokens_trails (eraseLine_leans _ _)) _) fun _ => ?_
  split
  · exact .bind (modifyRule_trails fun _ => rfl) fun _ => .bind (eraseHeader_trails _) fun _ => .pure _
  · exact .pure _

/-! ### Edits of a rule -/

end RuleEdit

/-- A rule in good form stands in the code between other words, and aliases lead to those or to names that it
defines. So may new ones. -/
structure RuleScope.Framed (lent : Handle → Prop) (scope : RuleScope) (front back : List Handle) : Prop where
  tidy : scope.tokens.Tidy
  listed : (front ++ (scope.rule.row ++ back)).Sublist scope.tokens.code
  chain : ∃ id, ∀ h ∈ scope.rule.row, h.chain = id
  proper : scope.rule.Proper scope.tokens
  targets : ∀ target, scope.tokens.Targets target ∨ lent target → target ∈ front ++ (scope.rule.definitions ++ back)
  ids : ∀ id ∈ scope.tokens.ids, id < scope.nextId

namespace RuleScope.Framed

variable {lent : Handle → Prop} {scope : RuleScope} {front back : List Handle}

theorem row_listed (framed : scope.Framed lent front back) : scope.rule.row.Sublist scope.tokens.code :=
  ((List.sublist_append_left _ _).trans (List.sublist_append_right _ _)).trans framed.listed

/-- Aliases lead to words before the condition or behind it, and so may new ones. -/
theorem condition (framed : scope.Framed lent front back) : ∃ ahead behind,
    (ahead ++ (scope.rule.condition.handles ++ behind)).Sublist scope.tokens.code ∧
      ∀ target, scope.tokens.Targets target ∨ lent target → target ∈ ahead ++ behind := by
  have listed := framed.listed
  rw [scope.rule.row_around_condition] at listed
  refine ⟨front ++ (scope.rule.headRow ++ scope.rule.conditionSection.handles), [scope.rule.closing] ++ back,
    by simpa using listed, fun target aimed => ?_⟩
  have within := framed.targets target aimed
  simp only [List.mem_append] at within ⊢
  rcases within with early | own | late
  · exact .inl (.inl early)
  · exact .inl (.inr (.inl (scope.rule.definitions_head own)))
  · exact .inr (.inr late)

end RuleScope.Framed

namespace RuleEdit

/-- However the edit ends on a rule among such tokens, aliases lead nowhere new but where new ones may lead. -/
def Traces {α : Type} (lent : Handle → Prop) (tokens : TokenStream) (edit : RuleEdit α) : Prop :=
  ∀ rule id front back result scope', Ends edit ⟨tokens, rule, id⟩ result scope' →
    RuleScope.Framed lent ⟨tokens, rule, id⟩ front back →
      (RuleScope.ground ⟨tokens, rule, id⟩).Follows lent scope'.ground

variable {lent : Handle → Prop} {tokens : TokenStream}

private theorem traces_of_trails {α : Type} {edit : RuleEdit α} (trails : Trails lent RuleScope.ground edit)
    (tokens : TokenStream) : Traces lent tokens edit :=
  fun _ _ _ _ _ _ ends framed => trails _ _ _ ends framed.tidy

private theorem setMetaValue_traces (key : String) {value : Literal}
    (lends : ∀ target, value.aliasTarget? = some target → lent target) : Traces lent tokens
    (setMetaValue key value) := by
  intro rule id front back result scope' ends framed
  have tidy := framed.tidy
  have rest := ends.get_bind
  dsimp only at rest
  split at rest
  next =>
    cases rest
    exact .refl tidy
  next entry found =>
    rcases rest.guard with rfl | ⟨_, rest⟩
    · exact .refl tidy
    cases rest
    have recast := tidy.setKind entry.value (metaValueKind_word value) []
    have first : tokens.Leans lent _ := tidy.sound.setKind_leans entry.value (metaValueKind value)
    have second := recast.tidy.sound.setLiteral_leans entry.value lends
    exact ⟨(recast.tidy.setLiteral entry.value value []).tidy, first.trans second, fun _ member _ =>
      member, Nat.le_refl _⟩

private theorem renameString_traces (old new : String) : Traces lent tokens (renameString old new) := by
  intro rule id front back result scope' ends framed
  have tidy := framed.tidy
  rcases ends.get_bind.guard with rfl | ⟨_, rest⟩
  · exact .refl tidy
  rcases rest.guard with rfl | ⟨_, rest⟩
  · exact .refl tidy
  dsimp only at rest
  split at rest
  next =>
    cases rest
    exact .refl tidy
  next string got =>
    cases rest.modify_bind
    refine ⟨(tidy.setLiteral string.id (.ofWritten new) []).tidy, tidy.sound.setLiteral_leans string.id nofun,
      fun target member _ => ?_, Nat.le_refl _⟩
    have same : ((rule.strings.rename? old new).getD rule.strings).values = rule.strings.values := by
      cases done : rule.strings.rename? old new with
      | none => rfl
      | some strings => exact (framed.proper.filed.neat.rename? done).1
    simpa [RuleScope.ground, Rule.definitions, Rule.ids, same] using member

private theorem removeString_traces (name : String) : Traces (fun _ => False) tokens (removeString name) := by
  intro rule id front back result scope' ends framed
  have proper := framed.proper
  rcases removeString_steps ends framed.tidy framed.row_listed framed.chain proper with rfl
    | ⟨rfl, later, sheds, ⟨header, _, same⟩, aside⟩
  · exact .refl framed.tidy
  obtain ⟨own, chain⟩ := framed.chain
  have tidy := (removeString_keeps framed.tidy proper.filed ends).1.tidy
  refine ⟨tidy, sheds.follows.leans, fun target member leads => ?_, Nat.le_of_eq later.symm⟩
  have aimed := leads.resolve_right not_false
  rcases List.mem_cons.mp member with rfl | named
  · simp [RuleScope.ground, same, Rule.definitions]
  · obtain ⟨string, listed, rfl⟩ := List.mem_map.mp named
    obtain ⟨drops, _⟩ := proper.filed.neat.remove name
    rcases List.mem_append.mp (drops.perm.mem_iff.mp listed) with gone | kept
    · obtain ⟨b, told, _⟩ := proper.defined string.id named
      exact absurd aimed (aside string gone string.id (by simp [StringDefinition.row]) b told)
    · rw [RuleScope.ground, same]
      exact List.mem_cons_of_mem _ (List.mem_map_of_mem kept)

end RuleEdit

/-! ### Conditions -/

/-- The aliases of a copy lead where those of the stream do, if none leads to what was copied. -/
theorem Expr.Copied.echoes {s : TokenStream} {e : Expr} {copy : Detached Expr} (copied : e.Copied s copy)
    (tidy : s.Tidy) {front back : List Handle} (listed : (front ++ (e.handles ++ back)).Sublist s.code)
    (aside : ∀ target, s.Targets target → target ∈ front ++ back) (fresh : copy.tokens.id ∉ s.ids)
    {lent : Handle → Prop} : Echoes lent s copy.tokens := by
  obtain ⟨⟨_, node⟩, member, id, done⟩ := copied
  obtain ⟨names, stream, made, rfl⟩ := Detached.copyOf_done done
  have part := (Expr.node_sublist member).subset
  have begins : node.first ∈ e.handles := part (List.mem_of_head? node.head?_handles)
  have ends : node.last ∈ e.handles := part (List.mem_of_getLast? node.getLast?_handles)
  obtain ⟨a, stored, _⟩ := tidy.get?_of_code (listed.subset (by simp [begins] : node.first ∈ _))
  obtain ⟨owner, held, _⟩ := Option.bind_eq_some_iff.mp stored
  obtain ⟨_, handles, copies⟩ := tidy.sound.copies held made
  have outside (target : Handle) (aimed : s.Targets target) : target ∉ handles :=
    tidy.not_mem_of_beside copies.spanned (TokenStream.beside_of_around listed begins ends (aside target aimed))
  have others : (front ++ back).Sublist s.code := ((List.sublist_append_right _ back).append_left front).trans listed
  intro target copied
  have aimed := copies.targets tidy.sound outside copied
  obtain ⟨b, known, _⟩ := tidy.get?_of_code (others.subset (aside target aimed))
  refine ⟨.inl aimed, fun own => fresh ?_⟩
  rw [copies.lone.ids, List.mem_singleton] at own
  show stream.chain.id ∈ s.ids
  exact own ▸ TokenStream.mem_ids_of_get? known

namespace RuleEdit

variable {lent : Handle → Prop} {tokens : TokenStream}

private theorem setCondition_traces {condition : Detached Expr} (ready : condition.Ready Expr.handles)
    (echoes : Echoes lent tokens condition.tokens) : Traces lent tokens (setCondition condition) := by
  intro rule id front back result scope' ends framed
  have tidy := framed.tidy
  cases exchanged : (tokens.exchange rule.condition.first rule.condition.last condition.tokens).1 with
  | error e =>
    cases ends.symm.trans (setCondition_fails exchanged)
    exact ⟨tidy, .refl _, fun _ member _ => member, Nat.le_max_left _ _⟩
  | ok pair =>
    cases ends.symm.trans (setCondition_succeeds exchanged)
    have nonempty := TokenStream.view_ne_nil condition.node.handles_ne_nil ready.listed
    have replaced := exchange_replaces tidy ready rule.condition.head?_handles rule.condition.getLast?_handles exchanged
    refine ⟨replaced.1.tidy, ?_, fun _ member _ => member, Nat.le_max_left _ _⟩
    exact (TokenStream.Leans.refl tokens).exchange tidy ready.lone nonempty echoes exchanged

/-- What a modifier offers has its tokens in order and leads where aliases led at the start or new ones may
lead, or it is a copy of the node at hand or of a part of it. A copy gets a new identity if the modifier is
given one. -/
def Answers (lent : Handle → Prop) (start : TokenStream) (modifier : Modifier) : Prop :=
  ∀ id tokens node replacement, modifier id tokens node = some replacement →
    replacement.Ready Expr.handles ∧ Echoes lent start replacement.tokens ∨
      node.Copied tokens replacement ∧ (id ∉ tokens.ids → replacement.tokens.id ∉ tokens.ids)

/-- While aliases led to words around a row and new ones may lead to no others, they lead nowhere else. -/
def FollowsFrom (lent : Handle → Prop) (start : TokenStream) (first : ChainId) (kept : List Handle)
    (s s' : Replacing) : Prop :=
  (∀ target, start.Targets target ∨ lent target → target ∈ kept) → start.Leans lent s.tokens → first ≤ s.nextId →
    start.Leans lent s'.tokens ∧ first ≤ s'.nextId

private theorem keeping_followsFrom (start : TokenStream) (first : ChainId) :
    Keeping (FollowsFrom lent start first) where
  refl _ _ _ leans later := ⟨leans, later⟩
  trans before after aside leans later := after aside (before aside leans later).1 (before aside leans later).2
  fewer kept fewer aside := kept fun target aimed => fewer (aside target aimed)

private theorem replaceNode_followsFrom {start : TokenStream} {first : ChainId} (free : ∀ id ∈ start.ids, id < first)
    {modifier : Modifier} (answers : Answers lent start modifier) (node : Expr) : Carries (FollowsFrom lent start first)
    (replaceNode modifier node) node.handles Expr.handles := by
  have offers : Offers modifier := fun id tokens node replacement offered =>
    (answers id tokens node replacement offered).imp And.left And.left
  refine replaceNode_carries (keeping_followsFrom start first) offers ?_ ?_ node
  · exact fun _ _ _ _ _ more _ leans later => ⟨leans, Nat.le_trans later more⟩
  · intro node id tokens replacement names after offered tidy ready exchanged front back listed aside leans later
    have echoes : Echoes lent start replacement.tokens := by
      rcases answers id tokens node replacement offered with ⟨_, echoes⟩ | ⟨copied, fresh⟩
      · exact echoes
      · have new : id ∉ tokens.ids := fun held => Nat.lt_irrefl id (Nat.lt_of_lt_of_le (free id (leans.ids held)) later)
        have copies : Echoes lent tokens replacement.tokens :=
          copied.echoes tidy listed (fun target aimed => aside target (leans.targets target aimed)) (fresh new)
        intro target aimed
        obtain ⟨leads, foreign⟩ := copies target aimed
        exact ⟨leads.elim (leans.targets target) .inr, foreign⟩
    have nonempty := TokenStream.view_ne_nil replacement.node.handles_ne_nil ready.listed
    exact ⟨leans.exchange tidy ready.lone nonempty echoes exchanged, Nat.le_trans later (Nat.le_max_left _ _)⟩

private theorem modifyCondition_traces {modifier : Modifier} (answers : Answers lent tokens modifier) :
    Traces lent tokens (modifyCondition modifier) := by
  intro rule id front back result scope' ends framed
  obtain ⟨own, chain⟩ := framed.chain
  obtain ⟨condition, _, same, rewrites, kept⟩ := modifyCondition_carries (keeping_followsFrom tokens id)
    (replaceNode_followsFrom framed.ids answers) framed.tidy framed.row_listed chain ends
  obtain ⟨ahead, behind, listed, aside⟩ := framed.condition
  obtain ⟨leans, later⟩ := kept ahead behind listed aside (.refl _) (Nat.le_refl _)
  refine ⟨rewrites.tidy, leans, fun target member _ => ?_, later⟩
  rw [RuleScope.ground, same]
  exact member

end RuleEdit

/-! ### Edits of a file -/

namespace FileEdit

open TokenEdit (insertAt_leans eraseLine_leans moveAll_leans)

variable {lent : Handle → Prop} {file file' : RuleFile}

private theorem onTokens_trails {α : Type} {edit : TokenEdit α} (leans : TokenEdit.Leans lent edit) :
    Trails lent RuleFile.ground (onTokens edit) := by
  intro file result file' ends tidy
  rw [Ends, onTokens_run] at ends
  cases ends
  obtain ⟨tidy', leans⟩ := leans file.tokens _ _ rfl tidy
  exact ⟨tidy', leans, fun _ member _ => member, Nat.le_refl _⟩

private theorem addImport_trails (name : String) : Trails lent RuleFile.ground (addImport name) := by
  refine .get_bind fun file => ?_
  split
  · exact .pure _
  refine .get_bind fun file => .get_bind fun file => ?_
  dsimp only
  refine .bind (.modify (fun _ => rfl) (fun _ => List.Subset.refl _) fun _ => Nat.le_refl _) fun _ => ?_
  split
  · exact .throw _
  refine .get_bind fun file => .bind (onTokens_trails (insertAt_leans plain_written.lends _)) fun _ => ?_
  refine .bind (onTokens_trails (insertAt_leans plain_written.lends _)) fun _ => ?_
  refine .bind (onTokens_trails (insertAt_leans plain_written.lends _)) fun _ => ?_
  exact .bind (.modify (fun _ => rfl) (fun _ => List.Subset.refl _) fun _ => Nat.le_refl _) fun _ => .pure _

private theorem removeImport_trails (name : String) : Trails lent RuleFile.ground (removeImport name) := by
  refine .get_bind fun file => ?_
  dsimp only
  split
  · exact .pure _
  refine .guard (.bind (.modify (fun _ => rfl) (fun _ => List.Subset.refl _) fun _ => Nat.le_refl _) fun _ => ?_)
  exact .bind (.forIn (fun _ => onTokens_trails (eraseLine_leans _ _)) _) fun _ => .pure _

private theorem insertRule_trails {rule : Detached Rule} (ready : rule.Ready Rule.row) (drafted : rule.tokens.Drafted)
    (index : Nat) : Trails lent RuleFile.ground (insertRule index rule) := by
  have nonempty := TokenStream.view_ne_nil rule.node.row_ne_nil ready.listed
  have placed (before : Option Handle) : Trails lent RuleFile.ground (do
      modify fun file => { file with nextId := max file.nextId (rule.tokens.id + 1) }
      let names ← onTokens (.moveAll before rule.tokens)
      modify fun file =>
        { file with rules := file.rules.insertIdx index (rule.node.rename names) } : FileEdit Unit) := by
    refine .bind (.modify (fun _ => rfl) (fun _ => List.Subset.refl _) fun _ => Nat.le_max_left _ _) fun _ => ?_
    refine .bind (onTokens_trails (moveAll_leans drafted nonempty before)) fun names => ?_
    refine .modify (fun _ => rfl) (fun file target named => ?_) fun _ => Nat.le_refl _
    obtain ⟨other, member, held⟩ := List.mem_flatMap.mp named
    refine List.mem_flatMap.mpr ⟨other, ?_, held⟩
    rcases Nat.lt_or_ge file.rules.length index with beyond | inside
    · rwa [List.insertIdx_of_length_lt beyond]
    · exact (List.mem_insertIdx inside).mpr (.inr member)
  refine .get_bind fun file => .guard ?_
  dsimp only
  split
  · exact .bind (.pure _) placed
  · split_ifs
    · exact .bind (.pure _) placed
    · exact .bind (.throw _) placed

private theorem addRule_trails {rule : Detached Rule} (ready : rule.Ready Rule.row) (drafted : rule.tokens.Drafted) :
    Trails lent RuleFile.ground (addRule rule) := .get_bind fun _ => insertRule_trails ready drafted _

private theorem removeRule_follows {name : String} {result : Except EditError Bool}
    (ends : Ends (removeRule name) file result file') (proper : file.Proper) :
    file.ground.Follows (fun _ => False) file'.ground := by
  have tidy := proper.listed.tidy
  rcases removeRule_steps ends proper with rfl | ⟨rfl, index, inside, tokens, rfl, sheds, aside⟩
  · exact .refl tidy
  have tidy' := (removeRule_preserves name file true _ proper.ordered ends).listed.tidy
  refine ⟨tidy', sheds.follows.leans, fun target member leads => ?_, Nat.le_refl _⟩
  have aimed := leads.resolve_right not_false
  obtain ⟨rule, listed, named⟩ := List.mem_flatMap.mp member
  rcases List.mem_cons.mp ((List.getElem_cons_eraseIdx_perm inside).mem_iff.mpr listed) with rfl | kept
  · obtain ⟨b, told, _⟩ := (proper.proper _ listed).definition named
    exact absurd aimed (aside target (Rule.definitions_row _ named) b told)
  · exact List.mem_flatMap.mpr ⟨rule, kept, named⟩

private theorem renameRule_follows {old new : String} {result : Except EditError Unit}
    (ends : Ends (renameRule old new) file result file') (tidy : file.tokens.Tidy) :
    file.ground.Follows lent file'.ground := by
  rcases ends.get_bind.guard with rfl | ⟨_, rest⟩
  · exact .refl tidy
  rcases rest.guard with rfl | ⟨_, rest⟩
  · exact .refl tidy
  dsimp only at rest
  split at rest
  next =>
    cases rest
    exact .refl tidy
  next index found =>
    cases rest
    have inside : index < file.rules.length := (List.findIdx?_eq_some_iff_getElem.mp found).1
    rw [List.getElem?_eq_getElem inside]
    refine ⟨(tidy.setLiteral _ _ []).tidy, tidy.sound.setLiteral_leans _ nofun, fun target member _ =>
      ?_, Nat.le_refl _⟩
    obtain ⟨rule, listed, named⟩ := List.mem_flatMap.mp member
    obtain ⟨i, here⟩ := List.getElem?_of_mem listed
    have there : (file.rules.modify index fun rule => { rule with symbol := Rule.symbolNamed new })[i]? =
        some (if index = i then { rule with symbol := Rule.symbolNamed new } else rule) := by
      rw [List.getElem?_modify, here]
      split_ifs <;> rfl
    refine List.mem_flatMap.mpr ⟨_, List.mem_of_getElem? there, ?_⟩
    split_ifs
    · exact named
    · exact named

end FileEdit

/-! ### Files -/

namespace RuleFile

variable {lent : Handle → Prop} {file file' : RuleFile}

/-- In a file that was read, aliases lead to names of rules and strings. -/
theorem Read.aimed (read : file.Read) : file.ground.Aimed := by
  refine ⟨fun target ⟨h, a, stored, points⟩ => ?_, read.ids_fresh⟩
  obtain ⟨rule, member, _, ⟨_, other, listed, rfl⟩ | named⟩ := read.linked.alias_of_condition stored points
  · exact List.mem_flatMap.mpr ⟨other, listed, List.mem_cons_self⟩
  · exact List.mem_flatMap.mpr ⟨rule, member, List.mem_cons_of_mem _ named⟩

private theorem Proper.framed (proper : file.Proper) (aimed : file.ground.Aimed)
    (lends : ∀ target, lent target → target ∈ file.definitions) {rule : Rule}
    (member : rule ∈ file.rules) : ∃ front back, RuleScope.Framed lent ⟨file.tokens, rule, file.nextId⟩ front back := by
  obtain ⟨index, inside, rfl⟩ := List.getElem_of_mem member
  have split := (List.getElem_cons_eraseIdx_perm inside).symm
  obtain ⟨front, back, listed, around⟩ := proper.listed.around (rows_of_rule file.imports split)
  refine ⟨front, back, proper.listed.tidy, listed, proper.listed.chain _ (row_mem member), proper.proper _ member,
    fun target leads => ?_, aimed.ids⟩
  obtain ⟨owner, among, named⟩ := List.mem_flatMap.mp (leads.elim (aimed.targets target) (lends target))
  rcases List.mem_cons.mp (split.mem_iff.mp among) with rfl | other
  · simp [named]
  · have beside := around owner.row (List.mem_append_right _ (List.mem_map_of_mem other)) (owner.definitions_row named)
    rcases List.mem_append.mp beside with early | late
    · simp [early]
    · simp [late]

/-- However the edit of a rule ends, aliases lead to definitions. -/
theorem Proper.editRule_aimed (proper : file.Proper) (aimed : file.ground.Aimed)
    (lends : ∀ target, lent target → target ∈ file.definitions) {α : Type} {edit : RuleEdit α}
    (traces : RuleEdit.Traces lent file.tokens edit) {name : String} {result : Except EditError α}
    (done : file.editRule name edit = some (result, file')) : file'.ground.Aimed := by
  obtain ⟨index, rule, scope, found, _, run, rfl⟩ := editRule_done done
  obtain ⟨inside, rfl⟩ := List.getElem?_eq_some_iff.mp found
  have split := (List.getElem_cons_eraseIdx_perm inside).symm
  have split' := List.set_perm_cons_eraseIdx inside scope.rule
  obtain ⟨front, back, framed⟩ := proper.framed aimed lends (List.getElem_mem inside)
  have follows := traces _ _ _ _ _ _ run framed
  refine aimed.follow lends ⟨follows.tidy, follows.tokens, fun target member leads => ?_, follows.later⟩
  obtain ⟨owner, among, named⟩ := List.mem_flatMap.mp member
  rcases List.mem_cons.mp (split.mem_iff.mp among) with rfl | other
  · exact List.mem_flatMap.mpr ⟨scope.rule, split'.mem_iff.mpr List.mem_cons_self,
      follows.definitions target named leads⟩
  · exact List.mem_flatMap.mpr ⟨owner, split'.mem_iff.mpr (List.mem_cons_of_mem _ other), named⟩

/-- While no alias of a file dangles, those of a copy of what a condition consists of lead to definitions. -/
theorem Proper.copy_leads (proper : file.Proper) (aimed : file.ground.Aimed) {rule : Rule} (member : rule ∈ file.rules)
    {copy : Detached Expr} (copied : rule.condition.Copied file.tokens copy) (fresh : copy.tokens.id ∉ file.tokens.ids)
    {target : Handle} (leads : copy.tokens.Targets target) : target ∈ file.definitions := by
  obtain ⟨front, back, framed⟩ := proper.framed aimed (fun _ => False.elim) member
  obtain ⟨ahead, behind, listed, aside⟩ := framed.condition
  have echoes : Echoes (fun _ => False) file.tokens copy.tokens :=
    copied.echoes framed.tidy listed (fun target aimed => aside target (.inl aimed)) fresh
  exact aimed.targets target ((echoes target leads).1.resolve_right not_false)

end RuleFile

/-- Conditions that were built from a draft, and copies of what conditions consist of, be it by now or in an
earlier state of the file. A copy is in a stream that is none of the file, and the names that its aliases lead
to are still in the file. -/
inductive Expr.Native (file : RuleFile) : Detached Expr → Prop
  | built {draft : ConditionDraft} {id : ChainId} {condition : Detached Expr} (done : draft.build id = .ok condition) :
      Expr.Native file condition
  | copied {earlier : RuleFile} {rule : Rule} {copy : Detached Expr} (attained : earlier.Attained)
      (member : rule ∈ earlier.rules)
      (done : rule.condition.Copied earlier.tokens copy) (fresh : copy.tokens.id ∉ file.tokens.ids)
      (leads : ∀ target, copy.tokens.Targets target → target ∈ file.definitions) : Expr.Native file copy

/-- Edits of a file that bring in nothing from other files: rules are built. -/
inductive FileEdit.Native : {α : Type} → FileEdit α → Prop
  | addImport (name : String) : FileEdit.Native (FileEdit.addImport name)
  | removeImport (name : String) : FileEdit.Native (FileEdit.removeImport name)
  | addRule {draft : RuleDraft} {id : ChainId} {rule : Detached Rule} (filled : draft.Filled)
      (done : draft.build id = .ok rule) :
      FileEdit.Native (FileEdit.addRule rule)
  | insertRule {draft : RuleDraft} {id : ChainId} {rule : Detached Rule} (index : Nat) (filled : draft.Filled)
      (done : draft.build id = .ok rule) : FileEdit.Native (FileEdit.insertRule index rule)
  | removeRule (name : String) : FileEdit.Native (FileEdit.removeRule name)
  | renameRule (old new : String) : FileEdit.Native (FileEdit.renameRule old new)

/-- Edits of a rule in a file that bring in nothing from other files. A value of the meta section stands for
itself or for a name in the file. What replaces a node of the condition is built or such a copy, or a copy of
that node or of a part of it as it is by then. -/
inductive RuleEdit.Native (file : RuleFile) : {α : Type} → RuleEdit α → Prop
  | setPrivate (wanted : Bool) : RuleEdit.Native file (RuleEdit.setPrivate wanted)
  | setGlobal (wanted : Bool) : RuleEdit.Native file (RuleEdit.setGlobal wanted)
  | addTag (tag : String) : RuleEdit.Native file (RuleEdit.addTag tag)
  | removeTag (tag : String) : RuleEdit.Native file (RuleEdit.removeTag tag)
  | addMeta (key : String) {value : Literal}
      (leads : ∀ target, value.aliasTarget? = some target → target ∈ file.definitions) :
      RuleEdit.Native file (RuleEdit.addMeta key value)
  | setMetaValue (key : String) {value : Literal}
      (leads : ∀ target, value.aliasTarget? = some target → target ∈ file.definitions) :
      RuleEdit.Native file (RuleEdit.setMetaValue key value)
  | removeMeta (key : String) : RuleEdit.Native file (RuleEdit.removeMeta key)
  | renameString (old new : String) : RuleEdit.Native file (RuleEdit.renameString old new)
  | removeString (id : String) : RuleEdit.Native file (RuleEdit.removeString id)
  | setCondition {condition : Detached Expr} (native : Expr.Native file condition) :
      RuleEdit.Native file (RuleEdit.setCondition condition)
  | modifyCondition {modifier : RuleEdit.Modifier}
      (native : ∀ id tokens node replacement, modifier id tokens node = some replacement →
      Expr.Native file replacement ∨
        node.Copied tokens replacement ∧ (id ∉ tokens.ids → replacement.tokens.id ∉ tokens.ids)) :
      RuleEdit.Native file (RuleEdit.modifyCondition modifier)

/-- Files that such edits lead to from files that were read, whether the edits succeed or fail. -/
inductive RuleFile.Evolved : RuleFile → Prop
  | read {settings : Settings} {tree : FileTree} {id : ChainId} {content : Bytes} {file : RuleFile}
      (done : RuleFile.ofSource settings tree id content = .ok file) : RuleFile.Evolved file
  | readPath {settings : Settings} {tree : FileTree} {id : ChainId} {path : String} {file : RuleFile}
      (done : RuleFile.ofPath settings tree id path = .ok file) : RuleFile.Evolved file
  | edited {α : Type} {edit : FileEdit α} {result : Except EditError α} {file file' : RuleFile}
      (evolved : RuleFile.Evolved file)
      (native : FileEdit.Native edit) (done : file.edit edit = (result, file')) : RuleFile.Evolved file'
  | ruleEdited {α : Type} {edit : RuleEdit α} {result : Except EditError α} {name : String} {file file' : RuleFile}
      (evolved : RuleFile.Evolved file) (native : RuleEdit.Native file edit)
      (done : file.editRule name edit = some (result, file')) : RuleFile.Evolved file'

theorem Expr.Native.given {file : RuleFile} {condition : Detached Expr} (native : Expr.Native file condition) :
    Expr.Given condition := by
  cases native with
  | built done => exact .built done
  | copied attained member done => exact .copied attained member done

theorem Expr.Native.echoes {file : RuleFile} {condition : Detached Expr} (native : Expr.Native file condition)
    (proper : file.Proper) : Echoes (· ∈ file.definitions) file.tokens condition.tokens := by
  cases native with
  | built done => exact (ConditionDraft.build_written done).2.echoes _
  | copied attained member done fresh leads =>
    intro target aimed
    have defined := leads target aimed
    refine ⟨.inr defined, fun own => fresh ?_⟩
    obtain ⟨rule, listed, named⟩ := List.mem_flatMap.mp defined
    obtain ⟨b, ⟨held, _⟩, _⟩ := (proper.proper rule listed).definition named
    have lone := (Expr.Given.copied attained member done).ready.lone
    rw [lone.ids, List.mem_singleton] at own
    show condition.tokens.chain.id ∈ file.tokens.ids
    exact own ▸ TokenStream.mem_ids_of_get? held

theorem FileEdit.Native.tried {α : Type} {edit : FileEdit α} (native : FileEdit.Native edit) : FileEdit.Tried edit := by
  cases native with
  | addImport name => exact .addImport name
  | removeImport name => exact .removeImport name
  | addRule filled done => exact .addRule (.built filled done)
  | insertRule index filled done => exact .insertRule index (.built filled done)
  | removeRule name => exact .removeRule name
  | renameRule old new => exact .renameRule old new

theorem FileEdit.Native.follows {α : Type} {edit : FileEdit α} (native : FileEdit.Native edit) {file file' : RuleFile}
    {result : Except EditError α} (ends : Ends edit file result file') (proper : file.Proper) :
    file.ground.Follows (fun _ => False) file'.ground := by
  have tidy := proper.listed.tidy
  cases native with
  | addImport name => exact addImport_trails name _ _ _ ends tidy
  | removeImport name => exact removeImport_trails name _ _ _ ends tidy
  | addRule filled done =>
    obtain ⟨ready, drafted, _⟩ := RuleDraft.build_written filled done
    exact addRule_trails ready drafted _ _ _ ends tidy
  | insertRule index filled done =>
    obtain ⟨ready, drafted, _⟩ := RuleDraft.build_written filled done
    exact insertRule_trails ready drafted index _ _ _ ends tidy
  | removeRule name => exact removeRule_follows ends proper
  | renameRule old new => exact renameRule_follows ends tidy

theorem RuleEdit.Native.tried {α : Type} {edit : RuleEdit α} {file : RuleFile} (native : RuleEdit.Native file edit) :
    RuleEdit.Tried edit := by
  cases native with
  | setPrivate wanted => exact .setPrivate wanted
  | setGlobal wanted => exact .setGlobal wanted
  | addTag tag => exact .addTag tag
  | removeTag tag => exact .removeTag tag
  | addMeta key _ => exact .addMeta key _
  | setMetaValue key _ => exact .setMetaValue key _
  | removeMeta key => exact .removeMeta key
  | renameString old new => exact .renameString old new
  | removeString id => exact .removeString id
  | setCondition native => exact .setCondition native.given
  | modifyCondition native =>
    refine .modifyCondition fun id tokens node replacement offered original => ?_
    rcases native id tokens node replacement offered with native | ⟨copied, _⟩
    · exact native.given
    · exact absurd copied original

/-- New aliases lead to definitions, and those that go are no targets any more. -/
theorem RuleEdit.Native.traces {α : Type} {edit : RuleEdit α} {file : RuleFile} (native : RuleEdit.Native file edit)
    (proper : file.Proper) : ∃ lent, (∀ target, lent target → target ∈ file.definitions) ∧
    RuleEdit.Traces lent file.tokens edit := by
  cases native with
  | removeString id => exact ⟨fun _ => False, fun _ => False.elim, removeString_traces id⟩
  | setPrivate wanted => exact ⟨_, fun _ => id, traces_of_trails (setModifier_trails _ wanted) _⟩
  | setGlobal wanted => exact ⟨_, fun _ => id, traces_of_trails (setModifier_trails _ wanted) _⟩
  | addTag tag => exact ⟨_, fun _ => id, traces_of_trails (addTag_trails tag) _⟩
  | removeTag tag => exact ⟨_, fun _ => id, traces_of_trails (removeTag_trails tag) _⟩
  | addMeta key leads => exact ⟨_, fun _ => id, traces_of_trails (addMeta_trails key leads) _⟩
  | setMetaValue key leads => exact ⟨_, fun _ => id, setMetaValue_traces key leads⟩
  | removeMeta key => exact ⟨_, fun _ => id, traces_of_trails (removeMeta_trails key) _⟩
  | renameString old new => exact ⟨_, fun _ => id, renameString_traces old new⟩
  | setCondition native => exact ⟨_, fun _ => id, setCondition_traces native.given.ready (native.echoes proper)⟩
  | modifyCondition native =>
    refine ⟨_, fun _ => id, modifyCondition_traces fun id tokens node replacement offered => ?_⟩
    exact (native id tokens node replacement offered).imp_left fun native => ⟨native.given.ready, native.echoes proper⟩

namespace RuleFile.Evolved

theorem attained {file : RuleFile} (evolved : file.Evolved) : file.Attained := by
  induction evolved with
  | read done => exact .read done
  | readPath done => exact .readPath done
  | edited _ native done ih => exact .edited ih native.tried done
  | ruleEdited _ native done ih => exact .ruleEdited ih native.tried done

/-- Whatever edits succeed or fail, aliases lead to names of rules and strings. -/
theorem aimed {file : RuleFile} (evolved : file.Evolved) : file.ground.Aimed := by
  induction evolved with
  | read done => exact (RuleFile.Read.ofSource done).aimed
  | readPath done => exact (RuleFile.Read.ofPath done).aimed
  | edited before native done ih => exact ih.follow (fun _ => False.elim) (native.follows done before.attained.proper)
  | ruleEdited before native done ih =>
    have proper := before.attained.proper
    obtain ⟨lent, lends, traces⟩ := native.traces proper
    exact proper.editRule_aimed ih lends traces done

/-- An alias, at whatever depth, leads in one step to a token of the same streams that gives a rule or a
string its name. -/
theorem aliases_lead_to_names {file : RuleFile} (evolved : file.Evolved) {h target : Handle} {a : Token}
    (member : (h, a) ∈ file.tokens.deepEntries) (points : a.literal.aliasTarget? = some target) :
    ∃ b text, (target, b) ∈ file.tokens.deepEntries ∧ file.tokens.get? target = some b ∧
      (b.kind = .ruleName ∨ b.kind = .stringDefinition) ∧ b.literal.asText? = some text ∧
      file.tokens.resolveFrom 2 a.literal = some b.literal ∧ file.tokens.resolve? h = some b.literal := by
  have proper := evolved.attained.proper
  have tidy := proper.listed.tidy
  have stored := tidy.sound.get?_of_deep tidy.distinct member
  obtain ⟨rule, listed, named⟩ := List.mem_flatMap.mp (evolved.aimed.targets target ⟨h, a, stored, points⟩)
  obtain ⟨b, ⟨held, plain⟩, names⟩ := (proper.proper rule listed).definition named
  have kind : b.kind = .ruleName ∨ b.kind = .stringDefinition := names.imp Token.Names.kind Token.Names.kind
  obtain ⟨text, written⟩ := Option.isSome_iff_exists.mp (names.elim Token.Names.text Token.Names.text)
  have step (steps : Nat) : file.tokens.resolveFrom (steps + 2) a.literal = some b.literal := by
    simp only [TokenStream.resolveFrom, points, held]
    rw [show b.literal.aliasTarget? = none from plain]
  refine ⟨b, text, tidy.sound.deep_of_get? tidy.distinct held, held, kind, written, step 0, ?_⟩
  rw [TokenStream.resolve?, stored]
  exact step 6

/-- Copies from the file as it is may be put in: the names that they lead to are still there. -/
theorem copied_native {file : RuleFile} (evolved : file.Evolved) {rule : Rule} (member : rule ∈ file.rules)
    {copy : Detached Expr} (copied : rule.condition.Copied file.tokens copy)
    (fresh : copy.tokens.id ∉ file.tokens.ids) : Expr.Native file copy := by
  have proper := evolved.attained.proper
  refine .copied evolved.attained member copied fresh fun target leads => ?_
  exact proper.copy_leads evolved.aimed member copied fresh leads

end RuleFile.Evolved

theorem RuleEdit.Native.copying (file : RuleFile) (selects : ChainId → TokenStream → Expr → Bool) :
    RuleEdit.Native file (RuleEdit.modifyCondition (RuleEdit.copying selects none)) := by
  refine .modifyCondition fun id tokens node replacement offered => .inr ?_
  unfold RuleEdit.copying at offered
  split_ifs at offered
  split at offered
  next copy done =>
    cases offered
    obtain ⟨names, stream, made, rfl⟩ := Detached.copyOf_done done
    have named : stream.chain.id = id := TokenStream.copyRange_id made
    refine ⟨⟨(0, node), ?_, id, done⟩, fun fresh => ?_⟩
    · exact node.self_node
    · show stream.chain.id ∉ tokens.ids
      rwa [named]
  next => cases offered

namespace RuleFile

/-- Two rules, one of which names the other. -/
def namedContent : Bytes := Bytes.ofText "rule a \x7b condition: true \x7d\nrule b \x7b condition: a \x7d"

/-- A copy of a condition is put back after the rule that it names was removed. Its alias leads nowhere, and
the condition has no text. -/
theorem stale_copy_dangles : yields (RuleFile.ofSource {} {} 0 namedContent) (fun file =>
    file.rules.any fun rule => rule.nameText file.tokens == "b" &&
    yields (Detached.copyOf Expr.rename file.tokens 1 rule.condition rule.condition.first rule.condition.last)
    fun copy =>
    leaves (file.edit (FileEdit.removeRule "a")) fun left =>
    leavesRule (left.editRule "b" (RuleEdit.setCondition copy)) fun stale =>
    (stale.tokens.deepEntries.any fun entry => entry.2.literal.isAlias && (stale.tokens.resolve? entry.1).isNone) &&
      stale.rules.map (·.condition.text stale.tokens) == [""]) = true := by
  decide +kernel

private theorem mirrored_aliases : yields (RuleFile.ofSource {} mirroredTree 0 mirroredContent) (fun file =>
    leavesRule (file.editRule "b" (RuleEdit.modifyCondition (RuleEdit.copying (fun _ _ _ => true) none))) fun copied =>
    leaves (copied.edit (FileEdit.renameRule "a" "c")) fun renamed =>
    renamed.tokens.deepEntries.any fun entry => entry.2.literal.isAlias && renamed.tokens.text entry.1 == "c") =
    true := by
  decide +kernel

/-- All nodes of a condition are copied and the rule that it names gets another name, in the stream of the
included file. The copy is an alias, and leads there. -/
theorem copied_alias_leads_to_name : ∃ (file copied renamed : RuleFile) (h target : Handle) (a b : Token)
    (text : String), RuleFile.ofSource {} mirroredTree 0 mirroredContent = .ok file ∧
    file.editRule "b" (RuleEdit.modifyCondition (RuleEdit.copying (fun _ _ _ => true) none)) = some (.ok (), copied) ∧
    copied.edit (FileEdit.renameRule "a" "c") = (.ok (), renamed) ∧ renamed.tokens.text h = "c" ∧
    (h, a) ∈ renamed.tokens.deepEntries ∧ a.literal.aliasTarget? = some target ∧
    (target, b) ∈ renamed.tokens.deepEntries ∧ renamed.tokens.get? target = some b ∧
    (b.kind = .ruleName ∨ b.kind = .stringDefinition) ∧ b.literal.asText? = some text ∧
    renamed.tokens.resolveFrom 2 a.literal = some b.literal ∧ renamed.tokens.resolve? h = some b.literal := by
  obtain ⟨file, done, run⟩ := yields_iff.mp mirrored_aliases
  obtain ⟨_, copied, replaced, run⟩ := leavesRule_iff.mp run
  obtain ⟨_, renamed, named, run⟩ := leaves_iff.mp run
  obtain ⟨⟨h, a⟩, member, found⟩ := List.any_eq_true.mp run
  simp only [Bool.and_eq_true, beq_iff_eq] at found
  obtain ⟨aliased, written⟩ := found
  obtain ⟨target, points⟩ := Option.isSome_iff_exists.mp aliased
  have copying : copied.Evolved := .ruleEdited (.read done) (.copying file fun _ _ _ => true) replaced
  have evolved : renamed.Evolved := .edited copying (.renameRule "a" "c") named
  obtain ⟨b, text, leads⟩ := Evolved.aliases_lead_to_names evolved member points
  exact ⟨file, copied, renamed, h, target, a, b, text, done, replaced, named, written, member, points, leads⟩

end RuleFile

end YaraRules
