import YaraRules.Proofs.ConditionEdits
import YaraRules.Proofs.RuleForms
import YaraRules.Proofs.StreamTargets

/-! What edits leave of a rule, whether they succeed or fail. The tokens of a rule that is in
order can always be changed as an edit needs it, so an edit fails before it changes
anything. Only a condition whose nodes are replaced can be left halfway, and that does
not concern the words of the rule. -/

namespace YaraRules

open TokenStream (Plain Tells Spares Grows Rewrites Tidy)
open NameTrie (Drops)

/-! ### Steps that cannot fail -/

/-- A change of a state ends in one way or the other and leaves a state. -/
def Ends {σ α : Type} (change : ExceptT EditError (StateM σ) α) (s : σ) (result : Except EditError α) (s' : σ) : Prop :=
  change s = (result, s')

namespace Ends

variable {σ α β : Type} {change : ExceptT EditError (StateM σ) α} {next : α → ExceptT EditError (StateM σ) β}
  {s middle s' : σ} {a : α} {result : Except EditError β}

/-- What succeeds first makes no difference to how a change ends. -/
theorem after (ends : Ends (change >>= next) s result s') (first : Succeeds change s a middle) :
    Ends (next a) middle result s' := by
  rw [Ends, bind_run, first] at ends
  exact ends

/-- A change ends where the first part of it fails. -/
theorem failed {e : EditError} (ends : Ends (change >>= next) s result s') (first : Fails change s e middle) :
    s' = middle := by
  rw [Ends, first.seq] at ends
  cases ends
  rfl

theorem get_bind {next : σ → ExceptT EditError (StateM σ) β} (ends : Ends (get >>= next) s result s') :
    Ends (next s) s result s' := ends

theorem modify_bind {f : σ → σ} {next : PUnit → ExceptT EditError (StateM σ) β}
    (ends : Ends (modify f >>= next) s result s') : Ends (next ⟨⟩) (f s) result s' := ends

/-- The first part of a change fails, or the rest ends it. -/
theorem bind (ends : Ends (change >>= next) s result s') :
    (∃ e, Fails change s e s') ∨ ∃ a middle, Succeeds change s a middle ∧ Ends (next a) middle result s' := by
  rcases found : change s with ⟨first, middle⟩
  cases first with
  | error e =>
    obtain rfl := ends.failed (show Fails change s e middle from found)
    exact .inl ⟨e, found⟩
  | ok a => exact .inr ⟨a, middle, found, ends.after found⟩

/-- A demand on the state holds, or the change ends there. -/
theorem guard {c : Prop} [Decidable c] {e : EditError} {next : α → ExceptT EditError (StateM σ) β}
    {change : ExceptT EditError (StateM σ) β} (ends : Ends (if c then throw e >>= next else change) s result s') :
    s' = s ∨ ¬ c ∧ Ends change s result s' := by
  split_ifs at ends with failed
  · cases ends
    exact .inl rfl
  · exact .inr ⟨failed, ends⟩

end Ends

/-- However a change ends, the state that it leaves is related to the one before. -/
def Relates {σ α : Type} (related : σ → σ → Prop) (change : ExceptT EditError (StateM σ) α) : Prop :=
  ∀ s result s', Ends change s result s' → related s s'

namespace Relates

variable {σ α β : Type} {related : σ → σ → Prop} {change : ExceptT EditError (StateM σ) α}
    {next : α → ExceptT EditError (StateM σ) β}

protected theorem pure (refl : ∀ s, related s s) (a : α) : Relates related (pure a) := by
  intro s result s' ends
  cases ends
  exact refl s

theorem throw (refl : ∀ s, related s s) (e : EditError) :
    Relates related (throw e : ExceptT EditError (StateM σ) α) := by
  intro s result s' ends
  cases ends
  exact refl s

theorem bind (trans : ∀ {s middle s'}, related s middle → related middle s' → related s s')
    (first : Relates related change) (rest : ∀ a, Relates related (next a)) : Relates related (change >>= next) := by
  intro s result s' ends
  rcases ends.bind with ⟨e, failed⟩ | ⟨a, middle, done, ends⟩
  · exact first s _ s' failed
  · exact trans (first s _ middle done) (rest a middle result s' ends)

theorem get_bind {next : σ → ExceptT EditError (StateM σ) β} (rest : ∀ s, Relates related (next s)) :
    Relates related (get >>= next) :=
  fun s result s' ends => rest s s result s' ends.get_bind

theorem modify {f : σ → σ} (step : ∀ s, related s (f s)) :
    Relates related (modify f : ExceptT EditError (StateM σ) PUnit) := by
  intro s result s' ends
  cases ends
  exact step s

/-- What is demanded of the state makes no difference. -/
theorem guard (refl : ∀ s, related s s) {c : Prop} [Decidable c] {e : EditError}
    {other : ExceptT EditError (StateM σ) β} (rest : Relates related other) :
    Relates related (if c then MonadExcept.throw e >>= next else other) := by
  intro s result s' ends
  rcases ends.guard with rfl | ⟨_, ends⟩
  · exact refl _
  · exact rest s result s' ends

theorem forIn (refl : ∀ s, related s s) (trans : ∀ {s middle s'}, related s middle → related middle s' → related s s')
    {change : α → ExceptT EditError (StateM σ) β} (each : ∀ a, Relates related (change a)) (items : List α) :
    Relates related (forIn items PUnit.unit fun a _ => do let _ ← change a; return ForInStep.yield PUnit.unit) := by
  induction items with
  | nil => exact .pure refl _
  | cons item rest ih =>
    rw [List.forIn_cons]
    refine bind trans (bind trans (each item) fun _ => .pure refl _) fun step => ?_
    cases step with
    | done u => exact .pure refl u
    | yield u => exact ih

theorem forM (refl : ∀ s, related s s) (trans : ∀ {s middle s'}, related s middle → related middle s' → related s s')
    {change : α → ExceptT EditError (StateM σ) PUnit} {items : List α}
    (each : ∀ a ∈ items, Relates related (change a)) : Relates related (items.forM change) := by
  induction items with
  | nil => exact .pure refl _
  | cons item rest ih => exact bind trans (each item (by simp)) fun _ => ih fun a member => each a (by simp [member])

end Relates

/-- A loop makes the change for one item, and then for the others. -/
theorem Succeeds.loop {σ α : Type} {each : α → ExceptT EditError (StateM σ) PUnit} {item : α} {items : List α}
    {s middle s' : σ} {u : PUnit}
    (first : Succeeds (each item) s ⟨⟩ middle)
    (rest : Succeeds (forIn items PUnit.unit fun x _ => do each x; pure (ForInStep.yield PUnit.unit)) middle u s') :
    Succeeds (forIn (item :: items) PUnit.unit fun x _ => do each x; pure (ForInStep.yield PUnit.unit)) s u s' := by
  rw [List.forIn_cons]
  have step : Succeeds (do each item; pure (ForInStep.yield PUnit.unit)) s (ForInStep.yield PUnit.unit) middle :=
    first.seq rfl
  exact step.seq rest

namespace TokenStream

/-- There is no new code, the words that are left are as they were, and aliases lead nowhere new. -/
structure Sheds (s after : TokenStream) : Prop where
  code : after.code ⊆ s.code
  spares : Spares s after after.code
  follows : Follows s after

variable {s middle after : TokenStream}

theorem Sheds.refl (s : TokenStream) : Sheds s s := ⟨List.Subset.refl _, .refl s _, .refl s⟩

theorem Sheds.trans (first : Sheds s middle) (second : Sheds middle after) : Sheds s after :=
  ⟨List.Subset.trans second.code first.code, (first.spares.fewer second.code).trans second.spares,
    first.follows.trans second.follows⟩

end TokenStream

open TokenStream (Sheds)

namespace TokenEdit

variable {s after : TokenStream}

private theorem insertBefore_succeeds (tidy : s.Tidy) {before : Handle} (listed : before ∈ s.code) (token : Token)
    (word : token.kind ≠ .newLine) : ∃ new after, Succeeds (insertBefore before token) s new after ∧
      Rewrites s after [before] [new, before] ∧ Grows s after ∧ after.get? new = some token := by
  obtain ⟨a, stored, _⟩ := tidy.get?_of_code listed
  obtain ⟨new, after, done⟩ := TokenStream.insertBefore_ok token (Option.isSome_of_eq_some stored)
  obtain ⟨here, others⟩ := tidy.get?_insertBefore done
  exact ⟨new, after, apply_succeeds done, tidy.insertBefore word done, others, here⟩

private theorem insertAfter_succeeds (tidy : s.Tidy) {before : Handle} (listed : before ∈ s.code) (token : Token)
    (word : token.kind ≠ .newLine) : ∃ new after, Succeeds (insertAfter before token) s new after ∧
      Rewrites s after [before] [before, new] ∧ Grows s after ∧ after.get? new = some token := by
  obtain ⟨a, stored, _⟩ := tidy.get?_of_code listed
  obtain ⟨new, after, done⟩ := TokenStream.insertAfter_ok token (Option.isSome_of_eq_some stored)
  obtain ⟨here, others⟩ := tidy.get?_insertAfter done
  exact ⟨new, after, apply_succeeds done, tidy.insertAfter word done, others, here⟩

private theorem sheds_erase (tidy : s.Tidy) {first last : Handle} (done : s.erase first last = .ok after) :
    Sheds s after := by
  refine ⟨?_, tidy.erase_spares done (List.Subset.refl _), tidy.erase_follows done⟩
  obtain ⟨_, _, _, ahead, middle, behind, split, now, _⟩ := tidy.erase_spots done
  rw [TokenStream.code, TokenStream.code, split, now]
  simp only [TokenStream.codeOf_append]
  exact List.append_subset.mpr ⟨List.subset_append_left _ _,
    List.subset_append_of_subset_right _ (List.subset_append_right _ _)⟩

private theorem erase_run {first last : Handle} (done : s.erase first last = .ok after) :
    Succeeds (erase first last) s () after :=
  apply_succeeds (by rw [done]; rfl)

private theorem eraseOne_succeeds (tidy : s.Tidy) {h : Handle} (listed : h ∈ s.code) :
    ∃ after, Succeeds (eraseOne h) s () after ∧ Rewrites s after [h] [] ∧ Sheds s after := by
  have begins : [h].head? = some h := rfl
  have chain : ∀ k ∈ [h], k.chain = h.chain := by simp
  obtain ⟨after, done⟩ := tidy.erase_ok begins rfl chain (List.singleton_sublist.mpr listed) (.inl rfl)
  have run := erase_run done
  exact ⟨after, run, eraseOne_rewrites tidy run, sheds_erase tidy done⟩

theorem eraseLine_succeeds (tidy : s.Tidy) {row : List Handle} {first last : Handle} (begins : row.head? = some first)
    (ends : row.getLast? = some last) (chain : ∃ id, ∀ h ∈ row, h.chain = id) (listed : row.Sublist s.code) :
    ∃ after, Succeeds (eraseLine first last) s () after ∧ Rewrites s after row [] ∧ Sheds s after := by
  obtain ⟨id, chain⟩ := chain
  obtain ⟨after, done⟩ := tidy.erase_ok begins ends chain listed (.inr rfl)
  have run : Succeeds (eraseLine first last) s () after := by
    rw [Succeeds, eraseLine, get_run]
    exact erase_run done
  exact ⟨after, run, eraseLine_rewrites tidy begins ends run, sheds_erase tidy done⟩

/-- No alias leads into a row that was erased. -/
theorem eraseLine_aside (tidy : s.Tidy) {row : List Handle} {first last target : Handle}
    (begins : row.head? = some first) (ends : row.getLast? = some last) (chain : ∃ id, ∀ h ∈ row, h.chain = id)
    (listed : row.Sublist s.code) {u : Unit} (done : Succeeds (eraseLine first last) s u after) (member : target ∈ row)
    {b : Token} (told : s.Tells target b) : ¬ after.Targets target := by
  obtain ⟨id, chain⟩ := chain
  obtain ⟨_, spanned, within⟩ := tidy.spanned_line begins ends chain listed (.inr rfl)
  exact tidy.erase_aside spanned (within member) told (succeeds_erase done.get_bind)

end TokenEdit

namespace RuleEdit

theorem onTokens_succeeds {α : Type} {edit : TokenEdit α} {tokens tokens' : TokenStream} {a : α}
    (done : Succeeds edit tokens a tokens') (rule : Rule) (id : ChainId) :
    Succeeds (onTokens edit) ⟨tokens, rule, id⟩ a ⟨tokens', rule, id⟩ := by
  rw [Succeeds, onTokens, ExceptT.run, done]

/-! ### What is left of a rule -/

/-- The row of a rule was rewritten, it is in good form, and nothing happened to its name or to words around it. -/
structure Leaves (tokens : TokenStream) (rule : Rule) (scope' : RuleScope) : Prop where
  rewrites : Rewrites tokens scope'.tokens rule.row scope'.rule.row
  proper : scope'.rule.Proper scope'.tokens
  name : scope'.rule.name = rule.name
  spares : ∀ front back, (front ++ (rule.row ++ back)).Sublist tokens.code →
    Spares tokens scope'.tokens (rule.name :: (front ++ back))

/-- Whatever comes of the edit, it leaves a rule in good form. -/
def Upholds {α : Type} (edit : RuleEdit α) : Prop :=
  ∀ tokens rule id result scope', Ends edit ⟨tokens, rule, id⟩ result scope' → tokens.Tidy →
    rule.row.Sublist tokens.code →
    (∃ id, ∀ h ∈ rule.row, h.chain = id) → rule.Proper tokens → Leaves tokens rule scope'

variable {tokens : TokenStream} {rule : Rule} {id : ChainId} {scope' : RuleScope}

theorem Leaves.same (tidy : tokens.Tidy) (proper : rule.Proper tokens) (id : ChainId) :
    Leaves tokens rule ⟨tokens, rule, id⟩ :=
  ⟨.refl tidy _, proper, rfl, fun _ _ _ => .refl _ _⟩

theorem name_row (rule : Rule) : rule.name ∈ rule.row := rule.words_row List.mem_cons_self

private theorem words_code (keeps : Keeps tokens rule scope') (listed : rule.row.Sublist tokens.code) :
    scope'.rule.words ⊆ scope'.tokens.code := by
  have here := keeps.1.code [] [] (by simpa using listed)
  exact List.Subset.trans scope'.rule.words_row (by simpa using here.subset)

/-- The words that are left in the code are as they were. -/
theorem Leaves.of_code (keeps : Keeps tokens rule scope') (proper : scope'.rule.Proper scope'.tokens)
    (name : scope'.rule.name = rule.name)
    (spares : Spares tokens scope'.tokens scope'.tokens.code) : Leaves tokens rule scope' := by
  refine ⟨keeps.1, proper, name, fun front back listed => spares.fewer fun h member => ?_⟩
  have here := (keeps.1.code front back listed).subset
  simp only [List.mem_cons, List.mem_append] at member
  rcases member with rfl | early | late
  · exact here (by simp [← name, name_row])
  · exact here (by simp [early])
  · exact here (by simp [late])

/-! ### Modifiers -/

private theorem keyword_row (rule : Rule) : rule.keyword ∈ rule.row := by simp [Rule.row]

private theorem modifiers_more {s : TokenStream} {added : Handle} {a : Token} (proper : rule.Proper s)
    (tells : s.Tells added a) (fresh : ∀ h ∈ rule.modifiers, (s.get? h).map (·.kind) ≠ some a.kind)
    {modifiers : List Handle} (same : modifiers.Perm (added :: rule.modifiers)) :
    ({ rule with modifiers } : Rule).Proper s := by
  refine proper.withModifiers _ ?_ fun h member => ?_
  · refine (same.map _).nodup_iff.mpr (List.nodup_cons.mpr ⟨fun listed => ?_, proper.modifiers⟩)
    obtain ⟨h, member, again⟩ := List.mem_map.mp listed
    exact fresh h member (again.trans (congrArg (Option.map (·.kind)) tells.1))
  · rcases List.mem_cons.mp (same.mem_iff.mp member) with rfl | old
    · exact ⟨a, tells⟩
    · exact proper.spelled h (List.mem_append_left _ old)

private theorem addModifier_leaves {kind : TokenKind} (word : kind ≠ .newLine) {result : Except EditError Unit}
    (ends : Ends (addModifier kind) ⟨tokens, rule, id⟩ result scope') (tidy : tokens.Tidy)
    (listed : rule.row.Sublist tokens.code) (proper : rule.Proper tokens)
    (fresh : ∀ h ∈ rule.modifiers, (tokens.get? h).map (·.kind) ≠ some kind) : Leaves tokens rule scope' := by
  obtain ⟨added, tokens₁, inserted, first, grows, stored⟩ :=
    TokenEdit.insertBefore_succeeds tidy (listed.subset (keyword_row rule)) (.fixed kind) word
  have kinds {s : TokenStream} (spares : Spares tokens s rule.words) :
      ∀ h ∈ rule.modifiers, (s.get? h).map (·.kind) ≠ some kind := by
    intro h member
    obtain ⟨a, tells⟩ := proper.spelled h (List.mem_append_left _ member)
    have told := spares h (by simp [Rule.words, member]) a tells
    rw [told.1, ← tells.1]
    exact fresh h member
  have rest := ends.get_bind.after (onTokens_succeeds inserted rule id)
  split at rest
  next other more _ modifiers =>
    have inside : other ∈ rule.row := by simp [Rule.row, show rule.modifiers = other :: more from modifiers]
    -- The word that was put in front of the keyword is taken out again.
    obtain ⟨tokens₂, erased, second, sheds⟩ := TokenEdit.eraseOne_succeeds first.tidy
      ((first.code [] [] (by simpa using listed.subset (keyword_row rule))).subset (by simp : added ∈ _))
    have back : Rewrites tokens tokens₂ rule.row rule.row :=
      ((first.trans (second.right [rule.keyword])).right
        ([rule.name] ++ (rule.tagRow ++ rule.bodyRow))).left rule.modifiers
    have still : rule.row ⊆ tokens₂.code := by
      have whole := back.code [] [] (by simpa using listed)
      exact (by simpa using whole : rule.row.Sublist tokens₂.code).subset
    obtain ⟨again, tokens₃, inserted', _, grows', stored'⟩ :=
      TokenEdit.insertBefore_succeeds second.tidy (still inside) (.fixed kind) word
    cases (rest.after (onTokens_succeeds erased rule id)).after (onTokens_succeeds inserted' rule id)
    have keeps := addModifier_keeps word tidy proper.filed ends
    have spares {kept : List Handle} (left : kept ⊆ tokens₂.code) : Spares tokens tokens₃ kept :=
      ((grows.spares kept).trans (sheds.spares.fewer left)).trans (grows'.spares kept)
    have words := spares (List.Subset.trans rule.words_row still)
    have more := modifiers_more (proper.of_spared words) ⟨stored', rfl⟩ (kinds words) (.refl _)
    refine ⟨keeps.1, more, rfl, fun front rest listed => spares ?_⟩
    have whole := (back.code front rest listed).subset
    intro h member
    simp only [List.mem_cons, List.mem_append] at member
    rcases member with rfl | early | late
    · exact still (name_row rule)
    · exact whole (by simp [early])
    · exact whole (by simp [late])
  next =>
    cases rest
    have keeps := addModifier_keeps word tidy proper.filed ends
    have proper' := proper.of_spared (grows.spares _)
    have more := modifiers_more proper' ⟨stored, rfl⟩ (kinds (grows.spares _)) (List.perm_append_singleton _ _)
    exact .of_code keeps more rfl (grows.spares _)

theorem setModifier_upholds {kind : TokenKind} (word : kind ≠ .newLine) (wanted : Bool) :
    Upholds (setModifier kind wanted) := by
  intro tokens rule id result scope' ends tidy listed chain proper
  have rest := ends.get_bind
  dsimp only at rest
  split at rest
  next none =>
    refine addModifier_leaves word rest tidy listed proper fun h member same => ?_
    have absent := List.findIdx?_eq_none_iff.mp none h member
    obtain ⟨a, stored, kind⟩ := Option.map_eq_some_iff.mp same
    simp [stored, kind] at absent
  next index found =>
    have inside : index < rule.modifiers.length := (List.findIdx?_eq_some_iff_getElem.mp found).1
    rw [List.getElem?_eq_getElem inside] at rest
    have member : rule.modifiers[index] ∈ rule.row := List.mem_append_left _ (List.getElem_mem inside)
    obtain ⟨tokens', erased, _, sheds⟩ := TokenEdit.eraseOne_succeeds tidy (listed.subset member)
    have fewer := List.eraseIdx_sublist rule.modifiers index
    have shorter := proper.withModifiers (rule.modifiers.eraseIdx index) (proper.modifiers.sublist (fewer.map _))
      fun h member => proper.spelled h (List.mem_append_left _ (fewer.subset member))
    cases rest.modify_bind.after (Succeeds.loop (onTokens_succeeds erased _ id) rfl)
    have keeps := setModifier_keeps word tidy proper.filed ends
    exact .of_code keeps (shorter.of_spared (sheds.spares.fewer (words_code keeps listed))) rfl sheds.spares
  next =>
    cases rest
    exact .same tidy proper id

/-! ### Tags -/

private theorem tagAnchor_succeeds (tidy : tokens.Tidy) (listed : rule.row.Sublist tokens.code)
    (proper : rule.Proper tokens) (id : ChainId) :
    ∃ anchor tokens' colon, Succeeds tagAnchor ⟨tokens, rule, id⟩ anchor
    ⟨tokens', { rule with tagColon := some colon }, id⟩ ∧
      Grows tokens tokens' ∧ tokens'.Tidy ∧ anchor ∈ tokens'.code := by
  cases last : rule.tags.getLast? with
  | some tag =>
    have member := List.mem_of_getLast? last
    obtain ⟨colon, there⟩ := Option.isSome_iff_exists.mp (proper.colon.mpr (List.ne_nil_of_mem member))
    refine ⟨tag, tokens, colon, ?_, .refl tokens, tidy, listed.subset (rule.words_row (by simp [Rule.words, member]))⟩
    rw [Succeeds, tagAnchor, get_run]
    dsimp only
    rw [last, ← there]
    rfl
  | none =>
    obtain ⟨colon, tokens', inserted, added, grows, _⟩ :=
      TokenEdit.insertAfter_succeeds tidy (listed.subset (name_row rule)) (.fixed .colon) (by decide)
    have anchored : colon ∈ tokens'.code := by
      have here := added.code [] [] (by simpa using listed.subset (name_row rule))
      exact here.subset (by simp)
    refine ⟨colon, tokens', colon, ?_, grows, added.tidy, anchored⟩
    rw [Succeeds, tagAnchor, get_run]
    dsimp only
    rw [last]
    exact (onTokens_succeeds inserted rule id).seq rfl

theorem addTag_upholds (tag : String) : Upholds (addTag tag) := by
  intro tokens rule id result scope' ends tidy listed chain proper
  rcases ends.get_bind.guard with rfl | ⟨_, rest⟩
  · exact .same tidy proper id
  rcases rest.guard with rfl | ⟨fresh, rest⟩
  · exact .same tidy proper id
  obtain ⟨anchor, tokens₁, colon, anchored, grows₁, tidy₁, live⟩ := tagAnchor_succeeds tidy listed proper id
  obtain ⟨token, tokens₂, inserted, _, grows₂, stored⟩ :=
    TokenEdit.insertAfter_succeeds tidy₁ live { kind := .tag, literal := .ofWritten tag } nofun
  cases (rest.after anchored).after (onTokens_succeeds inserted _ id)
  have keeps := addTag_keeps tidy proper.filed ends
  have tells : tokens₂.Tells token _ := ⟨stored, rfl⟩
  have spares := (grows₁.trans grows₂).spares rule.words
  have proper' := proper.of_spared spares
  refine .of_code keeps (proper'.withTags _ ?_ (by simp) fun h member => ?_) rfl ((grows₁.trans grows₂).spares _)
  · have text : tokens₂.text token = tag := tells.text
    have absent : tag ∉ rule.tags.map tokens₂.text := fun member =>
      fresh (List.contains_iff_mem.mpr (proper.tagTexts_spared spares ▸ member))
    rw [List.map_append, List.map_singleton, text]
    exact (List.perm_append_singleton tag _).nodup_iff.mpr (List.nodup_cons.mpr ⟨absent, proper'.tags⟩)
  · rcases List.mem_append.mp member with old | new
    · exact proper'.spelled h (List.mem_append_right _ old)
    · obtain rfl := List.mem_singleton.mp new
      exact ⟨_, tells⟩

theorem removeTag_upholds (tag : String) : Upholds (removeTag tag) := by
  intro tokens rule id result scope' ends tidy listed chain proper
  have rest := ends.get_bind
  dsimp only at rest
  split at rest
  next =>
    cases rest
    exact .same tidy proper id
  next token found =>
    have member := List.mem_of_find?_eq_some found
    obtain ⟨ahead, behind, fresh, tags, fewer⟩ := List.exists_erase_eq member
    have inside : token ∈ rule.row := rule.words_row (by simp [Rule.words, member])
    obtain ⟨tokens₁, erased, gone, sheds⟩ := TokenEdit.eraseOne_succeeds tidy (listed.subset inside)
    have rest := rest.modify_bind.after (onTokens_succeeds erased _ id)
    have texts : ((rule.tags.erase token).map tokens.text).Nodup := proper.tags.sublist (List.erase_sublist.map _)
    have told : ∀ h ∈ rule.tags.erase token, ∃ a, tokens.Tells h a := fun h member =>
      proper.spelled h (List.mem_append_right _ (List.mem_of_mem_erase member))
    split at rest
    next colon empty there =>
      have row : rule.row = (rule.modifiers ++ [rule.keyword, rule.name, colon] ++ ahead) ++
          ([token] ++ (behind ++ rule.bodyRow)) := by
        simp [Rule.row, Rule.tagRow, there, tags]
      have live : colon ∈ tokens₁.code := by
        have left := gone.code (rule.modifiers ++ [rule.keyword, rule.name, colon] ++ ahead)
          (behind ++ rule.bodyRow) (row ▸ listed)
        exact left.subset (by simp)
      obtain ⟨tokens₂, erased', _, sheds'⟩ := TokenEdit.eraseOne_succeeds gone.tidy live
      cases rest.modify_bind.after (onTokens_succeeds erased' _ id)
      have keeps := removeTag_keeps tidy proper.filed ends
      have nothing : rule.tags.erase token = [] := List.isEmpty_iff.mp empty
      have shorter := proper.withTags none texts (by simp [nothing]) told
      have spares := (sheds.trans sheds').spares
      exact .of_code keeps (shorter.of_spared (spares.fewer (words_code keeps listed))) rfl spares
    next other =>
      cases rest
      have keeps := removeTag_keeps tidy proper.filed ends
      obtain ⟨colon, there⟩ := Option.isSome_iff_exists.mp (proper.colon.mpr (List.ne_nil_of_mem member))
      have left : rule.tags.erase token ≠ [] := fun nothing => other colon (by simp [nothing]) there
      have shorter := proper.withTags rule.tagColon texts (by simp [there, left]) told
      exact .of_code keeps (shorter.of_spared (sheds.spares.fewer (words_code keeps listed))) rfl sheds.spares

/-! ### Entries of the meta section -/

private theorem metaAnchor_succeeds (tidy : tokens.Tidy) (listed : rule.row.Sublist tokens.code)
    (proper : rule.Proper tokens) (id : ChainId) :
    ∃ anchor tokens' header, Succeeds metaAnchor ⟨tokens, rule, id⟩ anchor
    ⟨tokens', { rule with metaSection := some header }, id⟩ ∧
      Grows tokens tokens' ∧ tokens'.Tidy ∧ anchor ∈ tokens'.code := by
  have part {h : Handle} (member : h ∈ rule.metaRow ++ (rule.stringRow ++ rule.conditionRow)) : h ∈ tokens.code := by
    refine listed.subset ?_
    simp only [Rule.row, Rule.bodyRow]
    exact List.mem_append_right _ (List.mem_append_right _ (List.mem_append_right _ (List.mem_append_right _ member)))
  cases last : rule.metas.getLast? with
  | some entry =>
    have member := List.mem_of_getLast? last
    obtain ⟨header, there⟩ := Option.isSome_iff_exists.mp (proper.metas (List.ne_nil_of_mem member))
    have live : entry.value ∈ rule.metaRow :=
      List.mem_append_right _ (List.mem_flatMap.mpr ⟨entry, member, by simp [MetaEntry.handles]⟩)
    refine ⟨entry.value, tokens, header, ?_, .refl tokens, tidy, part (List.mem_append_left _ live)⟩
    rw [Succeeds, metaAnchor, get_run]
    dsimp only
    rw [last, ← there]
    rfl
  | none =>
    cases there : rule.metaSection with
    | some header =>
      have live : header.colon ∈ rule.metaRow := by simp [Rule.metaRow, there, headerRow, Section.handles]
      refine ⟨header.colon, tokens, header, ?_, .refl tokens, tidy, part (List.mem_append_left _ live)⟩
      have same : ({ rule with metaSection := some header } : Rule) = rule := by rw [← there]
      rw [same, Succeeds, metaAnchor, get_run]
      dsimp only
      rw [last, there]
      rfl
    | none =>
      have live : (rule.stringSection.getD rule.conditionSection).keyword ∈ rule.stringRow ++ rule.conditionRow := by
        cases header : rule.stringSection
          <;> simp [Rule.stringRow, Rule.conditionRow, header, headerRow, Section.handles]
      have next := part (List.mem_append_right _ live)
      obtain ⟨keyword, tokens₁, inserted, added, grows, _⟩ :=
        TokenEdit.insertBefore_succeeds tidy next (.fixed .kwMeta) (by decide)
      have opened := (added.code [] [] (by simpa using next)).subset (show keyword ∈ _ by simp)
      obtain ⟨colon, tokens₂, inserted', added', grows', _⟩ :=
        TokenEdit.insertAfter_succeeds added.tidy opened (.fixed .colon) (by decide)
      have anchored := (added'.code [] [] (by simpa using opened)).subset (show colon ∈ _ by simp)
      refine ⟨colon, tokens₂, ⟨keyword, colon⟩, ?_, grows.trans grows', added'.tidy, anchored⟩
      rw [Succeeds, metaAnchor, get_run]
      dsimp only
      rw [last, there]
      exact (onTokens_succeeds inserted rule id).seq ((onTokens_succeeds inserted' rule id).seq rfl)

theorem addMeta_upholds (key : String) (value : Literal) : Upholds (addMeta key value) := by
  intro tokens rule id result scope' ends tidy listed chain proper
  rcases ends.guard with rfl | ⟨_, rest⟩
  · exact .same tidy proper id
  obtain ⟨anchor, tokens₁, header, anchored, grows₁, tidy₁, live₁⟩ := metaAnchor_succeeds tidy listed proper id
  obtain ⟨keyToken, tokens₂, inserted₂, added₂, grows₂, _⟩ :=
    TokenEdit.insertAfter_succeeds tidy₁ live₁ { kind := .metaKey, literal := .ofWritten key } nofun
  have live₂ := (added₂.code [] [] (by simpa using live₁)).subset (show keyToken ∈ _ by simp)
  obtain ⟨assign, tokens₃, inserted₃, added₃, grows₃, _⟩ :=
    TokenEdit.insertAfter_succeeds added₂.tidy live₂ (.fixed .assign) nofun
  have live₃ := (added₃.code [] [] (by simpa using live₂)).subset (show assign ∈ _ by simp)
  obtain ⟨valueToken, tokens₄, inserted₄, _, grows₄, _⟩ :=
    TokenEdit.insertAfter_succeeds added₃.tidy live₃ { kind := metaValueKind value, literal := value }
      (metaValueKind_word value)
  cases (((rest.after anchored).after (onTokens_succeeds inserted₂ _ id)).after
    (onTokens_succeeds inserted₃ _ id)).after
    (onTokens_succeeds inserted₄ _ id)
  have keeps := addMeta_keeps tidy proper.filed ends
  have grows := (grows₁.trans grows₂).trans (grows₃.trans grows₄)
  exact .of_code keeps ((proper.of_spared (grows.spares _)).withMetas _ _ fun _ => rfl) rfl (grows.spares _)

theorem row_around_meta (rule : Rule) :
    rule.row = (rule.modifiers ++ ([rule.keyword, rule.name] ++ (rule.tagRow ++ [rule.opening]))) ++
    (rule.metaRow ++ (rule.stringRow ++ rule.conditionRow)) := by simp [Rule.row, Rule.bodyRow]

private theorem words_apart (once : rule.row.Nodup) {h : Handle} (member : h ∈ rule.metaRow) : h ∉ rule.words := by
  rw [row_around_meta] at once
  obtain ⟨_, later, apart⟩ := List.nodup_append'.mp once
  obtain ⟨_, _, apart'⟩ := List.nodup_append'.mp later
  intro word
  simp only [Rule.words, List.mem_cons, List.mem_append] at word
  rcases word with rfl | (modifier | tag) | id
  · exact apart (by simp) (List.mem_append_left _ member)
  · exact apart (by simp [modifier]) (List.mem_append_left _ member)
  · exact apart (by simp [Rule.tagRow, tag]) (List.mem_append_left _ member)
  · exact apart' member (by simp [Rule.stringRow, rule.ids_row id])

/-- Other words are not changed when one token is. -/
theorem spares_modify {h : Handle} {f : Token → Token} {kept : List Handle} (absent : h ∉ kept) :
    Spares tokens (tokens.modify h f) kept := by
  intro other member a tells
  refine ⟨?_, tells.2⟩
  rw [TokenStream.get?_modify, if_neg fun same : other = h => absent (same ▸ member)]
  exact tells.1

/-- A token of the row is none of those around it. -/
theorem row_apart (tidy : tokens.Tidy) {front back : List Handle}
    (listed : (front ++ (rule.row ++ back)).Sublist tokens.code) {h : Handle} (member : h ∈ rule.row) :
    h ∉ front ++ back := by
  obtain ⟨_, others, apart⟩ := List.nodup_append'.mp (listed.nodup tidy.code_nodup)
  intro beside
  rcases List.mem_append.mp beside with early | late
  · exact apart early (List.mem_append_left _ member)
  · exact (List.nodup_append'.mp others).2.2 member late

theorem setMetaValue_upholds (key : String) (value : Literal) : Upholds (setMetaValue key value) := by
  intro tokens rule id result scope' ends tidy listed chain proper
  have rest := ends.get_bind
  dsimp only at rest
  split at rest
  next =>
    cases rest
    exact .same tidy proper id
  next entry found =>
    rcases rest.guard with rfl | ⟨_, rest⟩
    · exact .same tidy proper id
    cases rest
    have keeps := setMetaValue_keeps tidy proper.filed ends
    have inside : entry.value ∈ rule.metaRow :=
      List.mem_append_right _ (List.mem_flatMap.mpr ⟨entry, List.mem_of_find?_eq_some found,
        by simp [MetaEntry.handles]⟩)
    have apart := words_apart (listed.nodup tidy.code_nodup) inside
    have spares {kept : List Handle} (absent : entry.value ∉ kept) :
        Spares tokens ((tokens.setKind entry.value (metaValueKind value)).setLiteral entry.value value) kept :=
      (spares_modify absent).trans (spares_modify absent)
    refine ⟨keeps.1, proper.of_spared (spares apart), rfl, fun front back listed => spares ?_⟩
    rw [List.mem_cons, not_or]
    refine ⟨fun same => apart (same ▸ List.mem_cons_self), row_apart tidy listed ?_⟩
    simp [Rule.row, Rule.bodyRow, inside]

private theorem eraseLines_succeeds {β : Type} (row : β → List Handle) {first last : β → Handle}
    (begins : ∀ item, (row item).head? = some (first item)) (ends : ∀ item, (row item).getLast? = some (last item))
    {items removed kept : List β} (drops : Drops items removed kept) (tidy : tokens.Tidy)
    (listed : (items.flatMap row).Sublist tokens.code)
    {own : ChainId} (chain : ∀ h ∈ items.flatMap row, h.chain = own) (rule : Rule) (id : ChainId) :
    ∃ tokens', Succeeds (forIn removed PUnit.unit fun item _ => do
      onTokens (.eraseLine (first item) (last item))
      pure (ForInStep.yield PUnit.unit)) ⟨tokens, rule, id⟩ ⟨⟩ ⟨tokens', rule, id⟩ ∧
      Rewrites tokens tokens' (items.flatMap row) (kept.flatMap row) ∧ Sheds tokens tokens' ∧
      ∀ item ∈ removed, ∀ target ∈ row item, ∀ b, tokens.Tells target b → ¬ tokens'.Targets target := by
  induction drops generalizing tokens with
  | done => exact ⟨tokens, rfl, .refl tidy _, .refl tokens, nofun⟩
  | @step front back removed kept item later ih =>
    have one : (row item).Sublist (List.flatMap row (front ++ item :: back)) := by
      rw [List.flatMap_append, List.flatMap_cons]
      exact (List.sublist_append_left _ _).trans (List.sublist_append_right _ _)
    obtain ⟨tokens₁, erased, gone, sheds₁⟩ := TokenEdit.eraseLine_succeeds tidy (begins item) (ends item)
      ⟨own, fun h member => chain h (one.subset member)⟩ (one.trans listed)
    have whole : Rewrites tokens tokens₁ (List.flatMap row (front ++ item :: back))
        (List.flatMap row (front ++ back)) := by
      simpa using gone.frame (front.flatMap row) (back.flatMap row)
    have listed₁ : (List.flatMap row (front ++ back)).Sublist tokens₁.code := by
      simpa using whole.code [] [] (by simpa using listed)
    obtain ⟨tokens', looped, rest, sheds₂, aside⟩ :=
      ih whole.tidy listed₁ fun h member => whole.chain own chain h member
    refine ⟨tokens', Succeeds.loop (onTokens_succeeds erased rule id) looped, whole.trans rest, sheds₁.trans sheds₂,
      fun other among target held b told => ?_⟩
    rcases List.mem_cons.mp among with rfl | among
    · have gone := TokenEdit.eraseLine_aside tidy (begins other) (ends other)
        ⟨own, fun h member => chain h (one.subset member)⟩ (one.trans listed) erased held told
      exact fun aimed => gone (sheds₂.follows.targets target aimed)
    · have left := listed₁.subset (List.mem_flatMap.mpr
        ⟨other, later.perm.mem_iff.mpr (List.mem_append_left _ among), held⟩)
      exact aside other among target held b (sheds₁.spares target left b told)

private theorem eraseHeader_succeeds {header : Option Section} (tidy : tokens.Tidy)
    (listed : (headerRow header).Sublist tokens.code) (chain : ∃ own, ∀ h ∈ headerRow header, h.chain = own)
    (rule : Rule) (id : ChainId) : ∃ tokens', Succeeds (eraseHeader header) ⟨tokens, rule, id⟩ () ⟨tokens', rule, id⟩ ∧
    Sheds tokens tokens' := by
  cases header with
  | none => exact ⟨tokens, rfl, .refl tokens⟩
  | some header =>
    obtain ⟨tokens', erased, _, sheds⟩ :=
      TokenEdit.eraseLine_succeeds tidy (show header.handles.head? = some header.keyword from rfl) rfl
      chain listed
    exact ⟨tokens', onTokens_succeeds erased rule id, sheds⟩

theorem removeMeta_upholds (key : String) : Upholds (removeMeta key) := by
  intro tokens rule id result scope' ends tidy listed chain proper
  obtain ⟨own, chain⟩ := chain
  have rest := ends.get_bind
  dsimp only at rest
  rw [List.partition_eq_filter_filter] at rest
  have drops := drops_filter (fun entry : MetaEntry => entry.keyText tokens == key) [] rule.metas
  have part : rule.metaRow.Sublist rule.row := by
    rw [row_around_meta]
    exact (List.sublist_append_left _ _).trans (List.sublist_append_right _ _)
  have lines : (rule.metas.flatMap MetaEntry.handles).Sublist rule.metaRow := List.sublist_append_right _ _
  obtain ⟨tokens₁, looped, rewrites, sheds₁, _⟩ :=
    eraseLines_succeeds MetaEntry.handles (fun _ => rfl) (fun _ => rfl) drops tidy
    ((lines.trans part).trans listed) (fun h member => chain h (part.subset (lines.subset member)))
    { rule with metas := rule.metas.filter fun entry => !(entry.keyText tokens == key) } id
  have rest := rest.modify_bind.after looped
  split at rest
  next empty =>
    have first := rewrites.left (headerRow rule.metaSection)
    have header : (headerRow rule.metaSection).Sublist tokens₁.code := by
      have here := first.code [] [] (by simpa [Rule.metaRow] using part.trans listed)
      exact (List.sublist_append_left _ _).trans (by simpa using here)
    obtain ⟨tokens₂, erased, sheds₂⟩ := eraseHeader_succeeds first.tidy header
      ⟨own, fun h member => chain h (part.subset (List.mem_append_left _ member))⟩
      { rule with metas := rule.metas.filter fun entry => !(entry.keyText tokens == key), metaSection := none } id
    cases rest.modify_bind.after erased
    have keeps := removeMeta_keeps tidy proper.filed ends
    have spares := (sheds₁.trans sheds₂).spares
    have shorter := proper.withMetas none _ fun filled => absurd (List.isEmpty_iff.mp empty) filled
    exact .of_code keeps (shorter.of_spared (spares.fewer (words_code keeps listed))) rfl spares
  next =>
    cases rest
    have keeps := removeMeta_keeps tidy proper.filed ends
    have shorter := proper.withMetas rule.metaSection
      (rule.metas.filter fun entry => !(entry.keyText tokens == key)) fun filled => proper.metas fun none =>
        filled (by simp [none])
    exact .of_code keeps (shorter.of_spared (sheds₁.spares.fewer (words_code keeps listed))) rfl sheds₁.spares

/-! ### Strings -/

private theorem row_around_strings (rule : Rule) : rule.row =
    (rule.modifiers ++ ([rule.keyword, rule.name] ++ (rule.tagRow ++ ([rule.opening] ++ rule.metaRow)))) ++
      (rule.stringRow ++ rule.conditionRow) := by simp [Rule.row, Rule.bodyRow]

/-- Without its strings a rule stays as it is when the name of a string is changed. -/
theorem proper_but_for_strings (proper : rule.Proper tokens) (once : rule.row.Nodup) {h : Handle}
    (member : h ∈ rule.ids)
    (f : Token → Token) : ({ rule with strings := {}, stringSection := none } : Rule).Proper (tokens.modify h f) := by
  have bare := proper.withStrings none (iff_of_false Bool.false_ne_true fun filled => filled rfl) NameTrie.indexed_empty
    .empty nofun
  refine bare.of_spared (spares_modify fun word => ?_)
  rw [row_around_strings] at once
  have apart := (List.nodup_append'.mp once).2.2
  have inside : h ∈ rule.stringRow ++ rule.conditionRow :=
    List.mem_append_left _ (List.mem_append_right _ (rule.ids_row member))
  simp only [Rule.words, List.mem_cons, List.mem_append] at word
  rcases word with rfl | (modifier | tag) | id
  · exact apart (by simp) inside
  · exact apart (by simp [modifier]) inside
  · exact apart (by simp [Rule.tagRow, tag]) inside
  · cases id

theorem renameString_upholds (old new : String) : Upholds (renameString old new) := by
  intro tokens rule id result scope' ends tidy listed chain proper
  rcases ends.get_bind.guard with rfl | ⟨valid, rest⟩
  · exact .same tidy proper id
  rcases rest.guard with rfl | ⟨free, rest⟩
  · exact .same tidy proper id
  dsimp only at rest
  split at rest
  next =>
    cases rest
    exact .same tidy proper id
  next string got =>
    have free : rule.strings.contains new = false := by simpa using free
    have kept : old ≠ "$" := by
      rintro rfl
      simp at valid
    obtain ⟨strings, done⟩ := NameTrie.rename?_of_free free got
    cases rest.modify_bind
    have keeps := renameString_keeps tidy proper.filed ends
    dsimp only at keeps ⊢
    rw [done, Option.getD_some] at keeps ⊢
    have here := proper.indexed.get?_mem got
    have member : string.id ∈ rule.ids := List.mem_map.mpr ⟨string, List.mem_map_of_mem here, rfl⟩
    have once := listed.nodup tidy.code_nodup
    obtain ⟨b, held, names, text⟩ := proper.string here
    have spared {other : Handle} {a : Token} (tells : tokens.Tells other a) (apart : other ≠ string.id) :
        (tokens.setLiteral string.id (.ofWritten new)).Tells other a :=
      spares_modify (show string.id ∉ [other] by simpa using apart.symm) other (by simp) a tells
    have renamed : (tokens.setLiteral string.id
        (.ofWritten new)).Tells string.id { b with literal := .ofWritten new } := by
      refine ⟨?_, rfl⟩
      rw [TokenStream.setLiteral, TokenStream.get?_modify, if_pos rfl, held.1]
      rfl
    obtain ⟨indexed, items, _⟩ := proper.indexed.rename? done
    have bare := proper_but_for_strings proper once member (fun token => { token with literal := .ofWritten new })
    refine ⟨keeps.1, bare.withStrings rule.stringSection ?_ indexed
      (proper.distinct.rename? proper.indexed done kept) fun item inside => ?_, rfl, fun front back listed =>
        spares_modify ?_⟩
    · rw [(proper.filed.neat.rename? done).1]
      exact proper.strings
    · obtain ⟨item, before, rfl⟩ := List.mem_map.mp (items ▸ inside)
      unfold NameTrie.relabel
      split_ifs with same
      · obtain rfl : item.2 = string := proper.distinct.same (same ▸ before) here kept
        exact ⟨_, renamed, ⟨names.kind, rfl⟩, rfl⟩
      · obtain ⟨a, tells, names', text'⟩ := proper.string before
        refine ⟨a, spared tells fun again => same ?_, names', text'⟩
        obtain rfl : a = b := Option.some.inj (tells.1.symm.trans (again ▸ held.1))
        exact text'.symm.trans text
    · rw [List.mem_cons, not_or]
      refine ⟨fun same => ?_, row_apart tidy listed (rule.words_row (by simp [Rule.words, member]))⟩
      obtain ⟨a, tells, names'⟩ := proper.named
      obtain rfl : a = b := Option.some.inj (tells.1.symm.trans (same ▸ held.1))
      cases names'.kind.symm.trans names.kind

/-- A string is removed with all its tokens, or nothing happens. -/
theorem removeString_steps {name : String} {result : Except EditError Unit}
    (ends : Ends (removeString name) ⟨tokens, rule, id⟩ result scope')
    (tidy : tokens.Tidy) (listed : rule.row.Sublist tokens.code) (chain : ∃ id, ∀ h ∈ rule.row, h.chain = id)
    (proper : rule.Proper tokens) :
    scope' = ⟨tokens, rule, id⟩ ∨ result = .ok () ∧ scope'.nextId = id ∧ Sheds tokens scope'.tokens ∧
      (∃ header : Option Section, (header.isSome ↔ (rule.strings.remove name).2.values ≠ []) ∧
        scope'.rule = { rule with strings := (rule.strings.remove name).2, stringSection := header }) ∧
      ∀ string ∈ (rule.strings.remove name).1, ∀ target ∈ string.row, ∀ b, tokens.Tells target b →
      ¬ scope'.tokens.Targets target := by
  obtain ⟨own, chain⟩ := chain
  rcases ends.get_bind.guard with rfl | ⟨taken, rest⟩
  · exact .inl rfl
  rcases rest.guard with rfl | ⟨_, rest⟩
  · exact .inl rfl
  dsimp only at rest
  obtain ⟨drops, neat⟩ := proper.filed.neat.remove name
  have part : rule.stringRow.Sublist rule.row := by
    rw [row_around_strings]
    exact (List.sublist_append_left _ _).trans (List.sublist_append_right _ _)
  have lines : (rule.strings.values.flatMap StringDefinition.row).Sublist rule.stringRow :=
    List.sublist_append_right _ _
  obtain ⟨tokens₁, looped, rewrites, sheds₁, aside⟩ :=
    eraseLines_succeeds StringDefinition.row StringDefinition.head?_row
    StringDefinition.getLast?_row drops tidy ((lines.trans part).trans listed)
    (fun h member => chain h
      (part.subset (lines.subset member))) { rule with strings := (rule.strings.remove name).2 } id
  have rest := rest.modify_bind.after looped
  split at rest
  next empty =>
    have first := rewrites.left (headerRow rule.stringSection)
    have header : (headerRow rule.stringSection).Sublist tokens₁.code := by
      have here := first.code [] [] (by simpa [Rule.stringRow] using part.trans listed)
      exact (List.sublist_append_left _ _).trans (by simpa using here)
    obtain ⟨tokens₂, erased, sheds₂⟩ := eraseHeader_succeeds first.tidy header
      ⟨own, fun h member => chain h (part.subset (List.mem_append_left _ member))⟩
      { rule with strings := (rule.strings.remove name).2, stringSection := none } id
    cases rest.modify_bind.symm.trans erased
    refine .inr ⟨rfl, rfl, sheds₁.trans sheds₂, ⟨none, ?_, rfl⟩, fun string among target held b told aimed => ?_⟩
    · exact iff_of_false Bool.false_ne_true fun filled => filled (neat.values_of_isEmpty empty)
    · exact aside string among target held b told (sheds₂.follows.targets target aimed)
  next kept =>
    cases rest
    have left : (rule.strings.remove name).2.values ≠ [] := by
      intro nothing
      have size := neat.size
      rw [nothing, List.length_nil] at size
      exact kept (beq_iff_eq.mpr size)
    have header : rule.stringSection.isSome := by
      refine proper.strings.mpr fun nothing => left ?_
      have total := drops.length
      rw [nothing, List.length_nil] at total
      exact List.eq_nil_of_length_eq_zero (by omega)
    exact .inr ⟨rfl, rfl, sheds₁, ⟨rule.stringSection, iff_of_true header left, rfl⟩, aside⟩

theorem removeString_upholds (name : String) : Upholds (removeString name) := by
  intro tokens rule id result scope' ends tidy listed chain proper
  rcases removeString_steps ends tidy listed chain proper with rfl | ⟨rfl, _, sheds, ⟨header, filled, same⟩, _⟩
  · exact .same tidy proper id
  obtain ⟨indexed, items⟩ := proper.indexed.remove name
  have told : ∀ item ∈ (rule.strings.remove name).2.toList,
      ∃ a, tokens.Tells item.2.id a ∧ a.Names .stringDefinition ∧ a.literal.text = item.1 := fun item member =>
    proper.string (List.mem_filter.mp (items ▸ member)).1
  obtain ⟨own, chain⟩ := chain
  have keeps := removeString_keeps tidy proper.filed ends
  have shorter := proper.withStrings header filled indexed (proper.distinct.remove proper.indexed name) told
  exact .of_code keeps (same ▸ shorter.of_spared (sheds.spares.fewer (same ▸ words_code keeps listed)))
    (by rw [same]) sheds.spares

/-! ### The condition -/

/-- Another condition stands behind the words of a rule and changes none of them. -/
theorem Leaves.of_condition {condition : Expr} {tokens' : TokenStream} {id : ChainId} (proper : rule.Proper tokens)
    (listed : rule.row.Sublist tokens.code)
    (rewrites : Rewrites tokens tokens' rule.row { rule with condition : Rule }.row)
    (spares : ∀ front back, (front ++ (rule.condition.handles ++ back)).Sublist tokens.code →
    Spares tokens tokens' (front ++ back)) : Leaves tokens rule ⟨tokens', { rule with condition }, id⟩ := by
  have around (front back : List Handle) (listed : (front ++ (rule.row ++ back)).Sublist tokens.code) :
      Spares tokens tokens' ((front ++ (rule.headRow ++ rule.conditionSection.handles)) ++
        ([rule.closing] ++ back)) := by
    refine spares _ _ ?_
    rw [rule.row_around_condition] at listed
    simpa using listed
  refine ⟨rewrites, ?_, rfl, fun front back listed => (around front back listed).fewer fun h member => ?_⟩
  · refine Rule.Proper.withCondition (proper.of_spared ((around [] [] (by simpa using listed)).fewer
      fun h member => ?_)) condition
    simp [rule.words_head member]
  · simp only [List.mem_cons, List.mem_append] at member
    rcases member with rfl | early | late
    · simp [Rule.headRow]
    · simp [early]
    · simp [late]

theorem setCondition_upholds {condition : Detached Expr} (ready : condition.Ready Expr.handles) :
    Upholds (setCondition condition) := by
  intro tokens rule id result scope' ends tidy listed chain proper
  cases exchanged : (tokens.exchange rule.condition.first rule.condition.last condition.tokens).1 with
  | error e =>
    cases ends.symm.trans (setCondition_fails exchanged)
    exact .same tidy proper _
  | ok pair =>
    cases ends.symm.trans (setCondition_succeeds exchanged)
    have keeps := setCondition_keeps ready tidy proper.filed ends
    have spares :=
      (exchange_replaces tidy ready rule.condition.head?_handles rule.condition.getLast?_handles exchanged).2
    exact .of_condition proper listed keeps.1 spares

theorem modifyCondition_upholds {modifier : Modifier} (offers : Offers modifier) :
    Upholds (modifyCondition modifier) := by
  intro tokens rule id result scope' ends tidy listed chain proper
  obtain ⟨own, chain⟩ := chain
  obtain ⟨tokens', rule', nextId⟩ := scope'
  obtain ⟨condition, _, rfl, rewrites, spares⟩ :=
    modifyCondition_carries keeping_spares (replaceNode_spares offers) tidy listed chain ends
  exact .of_condition proper listed rewrites spares

end RuleEdit

end YaraRules
