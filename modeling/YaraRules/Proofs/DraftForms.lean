import YaraRules.Proofs.DraftRows
import YaraRules.Proofs.RuleForms

/-! Rules that are built are in good form. Tokens are only added while a draft is written, so
a word that was written stays as it is, and what a draft says once the rule says once. -/

namespace YaraRules

open TokenStream (Grows Plain Tells)

/-- A step leaves what was written before it, and something holds of its result and the stream. -/
def Emits {α : Type} (step : Emit α) (post : α → TokenStream → Prop) : Prop :=
  ∀ s a s', s.Drafted → step s = .ok (a, s') → s'.Drafted ∧ Grows s s' ∧ post a s'

/-- What holds of a result still holds when more is written. -/
def Lasts {α : Type} (known : α → TokenStream → Prop) : Prop := ∀ a s s', Grows s s' → known a s → known a s'

namespace Emits

variable {α β : Type} {step : Emit α} {next : α → Emit β} {known : α → TokenStream → Prop} {row : α → List Handle}
  {post : β → TokenStream → Prop}

theorem pure {b : β} (holds : ∀ s, post b s) : Emits (pure b) post := by
  intro s b s' drafted done
  cases done
  exact ⟨drafted, .refl s, holds s⟩

theorem weaken {weaker : α → TokenStream → Prop} (emits : Emits step known) (weaken : ∀ a s, known a s → weaker a s) :
    Emits step weaker :=
  fun s a s' drafted done => (emits s a s' drafted done).imp_right (·.imp_right (weaken a s'))

theorem seq (first : Emits step known) (rest : ∀ a s b s', known a s → s.Drafted → next a s = .ok (b, s') →
    s'.Drafted ∧ Grows s s' ∧ post b s') : Emits (step >>= next) post := by
  intro s b s'' drafted done
  obtain ⟨a, s', found, run⟩ := bind_done done
  obtain ⟨drafted', grows, holds⟩ := first s a s' drafted found
  obtain ⟨drafted'', grows', final⟩ := rest a s' b s'' holds drafted' run
  exact ⟨drafted'', grows.trans grows', final⟩

/-- What is known of the first result is known in the end. -/
theorem bind (first : Emits step known) (lasts : Lasts known)
    (rest : ∀ a, Emits (next a) fun b s => known a s → post b s) : Emits (step >>= next) post := by
  refine first.seq fun a s b s' holds drafted run => ?_
  obtain ⟨drafted', grows, final⟩ := rest a s b s' drafted run
  exact ⟨drafted', grows, final (lasts a s s' grows holds)⟩

private theorem of_writes (writes : ∀ base, Writes base [] step row) : Emits step fun _ _ => True := by
  intro s a s' drafted done
  obtain ⟨drafted', _, grows⟩ := writes s s a s' done [] ⟨drafted, List.nil_sublist _, .refl s⟩
  exact ⟨drafted', grows, trivial⟩

theorem skip (writes : ∀ base, Writes base [] step row) (rest : ∀ a, Emits (next a) post) :
    Emits (step >>= next) post :=
  (of_writes writes).bind (fun _ _ _ _ _ => trivial) fun a => (rest a).weaken fun _ _ holds _ => holds

private theorem of_gives {holds : α → Prop} (writes : ∀ base, Writes base [] step row) (gives : Gives step holds) :
    Emits step fun a _ => holds a := by
  intro s a s' drafted done
  obtain ⟨drafted', grows, _⟩ := of_writes writes s a s' drafted done
  exact ⟨drafted', grows, gives s a s' done⟩

/-- One of two steps is taken, and the same steps follow. -/
theorem choose {c : Prop} [Decidable c] {other : Emit α} (holds : α → Prop) (yes : c → Emits step fun a _ => holds a)
    (no : ¬ c → Emits other fun a _ => holds a) (rest : ∀ a, holds a → Emits (next a) post) :
    Emits (if c then step >>= next else other >>= next) post := by
  split_ifs with case
  · exact (yes case).seq fun a s b s' known => rest a known s b s'
  · exact (no case).seq fun a s b s' known => rest a known s b s'

theorem map {f : α → β} (writes : ∀ base, Writes base [] step row) (holds : ∀ a s, post (f a) s) :
    Emits (f <$> step) post := by
  intro s b s' drafted done
  obtain ⟨a, found, rfl⟩ := map_done done
  obtain ⟨drafted', grows, _⟩ := of_writes writes s a s' drafted found
  exact ⟨drafted', grows, holds a s'⟩

theorem put (token : Token) (plain : Plain token) : Emits (Emit.put token) fun h s => s.Tells h token := by
  intro s h s' drafted done
  obtain ⟨rfl, rfl⟩ : (s.push token).1 = h ∧ (s.push token).2 = s' := by
    have run : Except.ok (s.push token) = .ok (h, s') := done
    simpa [Prod.ext_iff] using run
  obtain ⟨stored, grows⟩ := drafted.toLone.tidy.get?_push token
  exact ⟨drafted.push plain, grows, stored, plain⟩

end Emits

theorem lasts_tells (token : Token) : Lasts fun h s => s.Tells h token := fun _ _ _ grows tells => grows.tells tells

namespace RuleDraft

/-! ### Words -/

/-- Tokens with these kinds and literals are told, in this order. -/
def Spelled (words : List (TokenKind × Literal)) (tokens : List Handle) (s : TokenStream) : Prop :=
  List.Forall₂ (fun h word => s.Tells h { kind := word.1, literal := word.2 }) tokens words

private theorem lasts_spelled (words : List (TokenKind × Literal)) : Lasts (Spelled words) :=
  fun _ _ _ grows spelled => spelled.imp fun _ _ tells => grows.tells tells

namespace Spelled

variable {words : List (TokenKind × Literal)} {tokens : List Handle} {s : TokenStream}
    (spelled : Spelled words tokens s)
include spelled

theorem told : ∀ h ∈ tokens, ∃ a, s.Tells h a := fun h member => by
  obtain ⟨_, _, tells⟩ := mem_of_forall₂ spelled.flip member
  exact ⟨_, tells⟩

theorem kinds : (tokens.map fun h => (s.get? h).map (·.kind)) = words.map fun word => some word.1 := by
  unfold Spelled at spelled
  induction spelled with
  | nil => rfl
  | cons tells _ ih =>
    rw [List.map_cons, List.map_cons, ih, tells.1]
    rfl

theorem texts : tokens.map s.text = words.map fun word => TokenStream.writtenAs word.1 word.2.text := by
  unfold Spelled at spelled
  induction spelled with
  | nil => rfl
  | cons tells _ ih => rw [List.map_cons, List.map_cons, ih, tells.text]

end Spelled

private theorem emitTokens_spelled : ∀ {words : List (TokenKind × Literal)}, (∀ word ∈ words, Word word) →
    Emits (emitTokens words) (Spelled words)
  | [], _ => .pure fun _ => .nil
  | (kind, literal) :: rest, words => by
    rw [List.forall_mem_cons] at words
    refine .bind (.put { kind, literal } words.1.2) (lasts_tells _) fun h => ?_
    exact .bind (emitTokens_spelled words.2) (lasts_spelled rest) fun tokens => .pure fun s spelled told =>
      .cons told spelled

/-- The token of a name in a definition. -/
def definition (id : String) : Token := { kind := .stringDefinition, literal := .ofWritten id }

private theorem emitString_tells (draft : StringDraft) :
    Emits (emitString draft) fun string s => s.Tells string.id (definition draft.id) := by
  refine .bind (.put (definition draft.id) rfl) (lasts_tells _) fun id => ?_
  refine .skip (fun _ => Emit.fixed_writes (by decide)) fun assign => ?_
  refine .skip (fun _ => emitContent_writes draft.content) fun content => ?_
  exact .skip (fun _ => emitModifiers_writes draft.modifiers) fun modifiers => .pure fun s told => told

/-- Strings are told under the names that they are kept under. -/
def Told (strings : NameTrie StringDefinition) (s : TokenStream) : Prop :=
  ∀ item ∈ strings.toList, s.Tells item.2.id (definition item.1)

private theorem emitStrings_told : ∀ (drafts : List StringDraft)
    {strings : NameTrie StringDefinition}, strings.Indexed →
    Emits (emitStrings strings drafts) fun t s => t.Indexed ∧
    t.toList.map (·.1) = strings.toList.map (·.1) ++ drafts.map (·.id) ∧
      (Told strings s → Told t s)
  | [], _, indexed => .pure fun s => ⟨indexed, by simp, fun told => told⟩
  | draft :: rest, strings, indexed => by
    refine .bind (emitString_tells draft) (fun _ _ _ grows tells => grows.tells tells) fun string => ?_
    refine .skip (fun _ => Emit.newline_writes) fun _ s t s' drafted done => ?_
    obtain ⟨drafted', grows, indexed', names, told⟩ :=
      emitStrings_told rest (indexed.insertAgain draft.id string) s t s' drafted done
    refine ⟨drafted', grows, fun new => ⟨indexed', ?_, fun old => told ?_⟩⟩
    · rw [names, NameTrie.toList_insertAgain]
      simp
    · intro item member
      rw [NameTrie.toList_insertAgain, List.mem_append, List.mem_singleton] at member
      rcases member with before | rfl
      · exact old item before
      · exact new

private theorem emitStrings_single (drafts : List StringDraft) : Emits (emitStrings {} drafts) fun t s =>
    t.Indexed ∧ t.toList.map (·.1) = drafts.map (·.id) ∧ Told t s :=
  (emitStrings_told drafts NameTrie.indexed_empty).weaken fun _ _ ⟨indexed, names, told⟩ => ⟨indexed, names, told nofun⟩

/-! ### What drafts say once -/

/-- No tag is repeated, and only the strings `$` share their name. -/
structure Single (draft : RuleDraft) : Prop where
  tags : draft.tags.Nodup
  strings : ((draft.strings.map (·.id)).filter (· != "$")).Nodup

theorem Single.withString {draft : RuleDraft} (single : draft.Single) (id : String) (content : ContentDraft) :
    (draft.withString id content).Single := by
  unfold RuleDraft.withString
  split_ifs with _ repeated
  · exact ⟨single.tags, single.strings⟩
  · exact ⟨single.tags, single.strings⟩
  · refine ⟨single.tags, ?_⟩
    rw [List.map_append, List.filter_append]
    refine List.nodup_append.mpr ⟨single.strings, (List.pairwise_singleton _ id).filter _,
      fun name here other there same => ?_⟩
    obtain ⟨listed, named⟩ := List.mem_filter.mp here
    obtain rfl : other = id := List.mem_singleton.mp (List.mem_filter.mp there).1
    obtain ⟨string, member, rfl⟩ := List.mem_map.mp listed
    refine repeated ?_
    rw [← same, Bool.and_eq_true, List.any_eq_true]
    exact ⟨named, string, member, beq_self_eq_true _⟩

theorem Single.withModifier {draft : RuleDraft} (single : draft.Single) (modifier : ModifierKind) :
    (draft.withModifier modifier).Single := by
  unfold RuleDraft.withModifier
  split
  next string last =>
    split_ifs
    · exact single
    · refine ⟨single.tags, ?_⟩
      have whole := List.dropLast_append_getLast? string last
      have same : (draft.strings.dropLast ++
        [{ string with modifiers := string.modifiers ++ [modifier] }]).map StringDraft.id =
          draft.strings.map StringDraft.id := by
        conv_rhs => rw [← whole]
        rw [List.map_append, List.map_append]
        rfl
      exact same ▸ single.strings
  next => exact ⟨single.tags, single.strings⟩

theorem Filled.single {draft : RuleDraft} (filled : draft.Filled) : draft.Single := by
  induction filled with
  | new => exact ⟨List.nodup_nil, List.nodup_nil⟩
  | markPrivate _ ih | markGlobal _ ih | withComment _ _ ih | withCondition _ _ ih => exact ⟨ih.tags, ih.strings⟩
  | withName _ _ ih =>
    unfold RuleDraft.withName named
    split_ifs <;> exact ⟨ih.tags, ih.strings⟩
  | withTag tag _ ih =>
    unfold RuleDraft.withTag named
    split_ifs with _ repeated
    · exact ih
    · have fresh : tag ∉ _ := fun member => repeated (List.contains_iff_mem.mpr member)
      exact ⟨(List.perm_append_singleton tag _).nodup_iff.mpr (List.nodup_cons.mpr ⟨fresh, ih.tags⟩), ih.strings⟩
    · exact ⟨ih.tags, ih.strings⟩
  | withStringMeta _ _ _ ih | withIntMeta _ _ _ ih | withUIntMeta _ _ _ ih | withHexMeta _ _ _ ih
    | withBoolMeta _ _ _ ih =>
    simp only [RuleDraft.withStringMeta, RuleDraft.withIntMeta, RuleDraft.withUIntMeta, RuleDraft.withHexMeta,
      RuleDraft.withBoolMeta, RuleDraft.withMeta, named]
    split_ifs <;> exact ⟨ih.tags, ih.strings⟩
  | withString id content _ ih => exact ih.withString id content
  | withRegexp id _ _ _ ih =>
    unfold RuleDraft.withRegexp
    dsimp only
    split
    · exact ih.withString id _
    · exact ⟨ih.tags, ih.strings⟩
  | withModifier modifier _ ih => exact ih.withModifier modifier
  | withXorRange _ _ _ ih =>
    unfold RuleDraft.withXorRange
    split_ifs
    · exact ⟨ih.tags, ih.strings⟩
    · exact ih.withModifier _
  | withBase64 _ _ ih =>
    unfold RuleDraft.withBase64 checkAlphabet
    split_ifs
    · exact ih.withModifier _
    · exact ⟨ih.tags, ih.strings⟩
  | withBase64Wide _ _ ih =>
    unfold RuleDraft.withBase64Wide checkAlphabet
    split_ifs
    · exact ih.withModifier _
    · exact ⟨ih.tags, ih.strings⟩

/-! ### The rule -/

private theorem emitMetas_gives : ∀ metas, Gives (emitMetas metas) fun entries => metas = [] → entries = []
  | [] => .pure fun _ => rfl
  | _ :: _ => fun _ _ _ _ => nofun

private theorem emit_proper (draft : RuleDraft) (words : ∀ entry ∈ draft.metas, Word entry.2) (single : draft.Single)
    (name : String) : Emits (draft.emit name) fun rule s => rule.Proper s := by
  unfold emit
  refine .bind (emitTokens_spelled (List.forall_mem_map.mpr fun kind member => ⟨?_, rfl⟩)) (lasts_spelled _)
    fun modifiers => ?_
  · rintro rfl
    cases draft.isGlobal <;> cases draft.isPrivate <;> simp at member
  refine .skip (fun _ => Emit.fixed_writes (by decide)) fun keyword => ?_
  refine .bind (.put { kind := .ruleName, literal := .ofWritten name } rfl) (lasts_tells _) fun nameToken => ?_
  refine .choose (fun colon => colon.isSome ↔ draft.tags ≠ []) (fun empty => .pure fun _ => ?_)
    (fun filled => .map (fun _ => Emit.fixed_writes (by decide)) fun _ _ => ?_) fun tagColon colon => ?_
  · simp [List.isEmpty_iff.mp empty]
  · simpa using filled
  refine .bind (emitTokens_spelled (List.forall_mem_map.mpr fun _ _ => ⟨nofun, rfl⟩)) (lasts_spelled _) fun tags => ?_
  refine .skip (fun _ => Emit.fixed_writes (by decide)) fun opening => ?_
  refine .skip (fun _ => emitComments_writes draft.comments) fun _ => ?_
  refine .choose (fun header => draft.metas ≠ [] → header.isSome) (fun empty => .pure fun _ filled => ?_)
    (fun _ => .map (fun _ => emitSection_writes (by decide)) fun _ _ _ => rfl) fun metaSection metaHeader => ?_
  · exact absurd (List.isEmpty_iff.mp empty) filled
  refine .bind (.of_gives (fun _ => emitMetas_writes words) (emitMetas_gives draft.metas)) (fun _ _ _ _ known =>
    known) fun metas => ?_
  refine .choose (fun header => header.isSome ↔ draft.strings ≠ []) (fun empty => .pure fun _ => ?_)
    (fun filled => .map (fun _ => emitSection_writes (by decide)) fun _ _ => ?_) fun stringSection stringHeader => ?_
  · simp [List.isEmpty_iff.mp empty]
  · simpa using filled
  refine .bind (emitStrings_single draft.strings) (fun _ _ _ grows known => ?_) fun strings => ?_
  · exact ⟨known.1, known.2.1, fun item member => grows.tells (known.2.2 item member)⟩
  refine .skip (fun _ => emitSection_writes (by decide)) fun conditionSection => ?_
  refine .skip (fun _ => draft.condition.emit_writes) fun condition => ?_
  refine .skip (fun _ => Emit.newline_writes) fun _ => ?_
  refine .skip (fun _ => Emit.fixed_writes (by decide)) fun closing => .pure
    fun s told noMetas tagged named modified => ?_
  obtain ⟨indexed, names, told⟩ := told
  have tagTexts : tags.map s.text = draft.tags := by
    rw [tagged.texts, List.map_map]
    exact List.map_id _
  have filled : strings.values ≠ [] ↔ draft.strings ≠ [] := by
    have sizes := congrArg List.length names
    simp only [List.length_map] at sizes
    simp [NameTrie.values, ← List.length_eq_zero_iff, sizes]
  refine ⟨⟨?_, ?_, ?_, fun metas => metaHeader fun none => metas (noMetas none), stringHeader.trans filled.symm,
    indexed, ?_, ?_⟩, ⟨_, named, rfl, rfl⟩, ?_, ?_⟩
  · rw [modified.kinds]
    cases draft.isGlobal <;> cases draft.isPrivate <;> decide
  · exact (show (tags.map s.text).Nodup from tagTexts ▸ single.tags)
  · simpa [← tagTexts] using colon
  · rw [NameTrie.Distinct, names]
    exact single.strings
  · exact fun item member => (told item member).text
  · exact fun h member => (List.mem_append.mp member).elim (modified.told h) (tagged.told h)
  · intro h member
    obtain ⟨string, listed, rfl⟩ := List.mem_map.mp member
    obtain ⟨item, inside, rfl⟩ := List.mem_map.mp listed
    exact ⟨_, told item inside, rfl, rfl⟩

theorem build_proper {id : ChainId} {draft : RuleDraft} (filled : draft.Filled) {rule : Detached Rule}
    (done : draft.build id = .ok rule) : rule.node.Proper rule.tokens := by
  obtain ⟨name, found⟩ := build_done done
  exact (draft.emit_proper filled.words filled.single name _ _ _ (TokenStream.drafted_empty id) found).2.2

end RuleDraft

end YaraRules
