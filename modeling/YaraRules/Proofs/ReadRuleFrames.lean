import YaraRules.Proofs.ReadConditionFrames
import YaraRules.Proofs.ReadRuleNames

/-! What reading a rule leaves as it is. A minus sign in front of a number is taken out of the
source; no other token notices, because no alias leads to a token that has no part in
naming things. -/

namespace YaraRules.Grammar

variable {free : List Handle}

/-! ### Hex strings and modifiers -/

private theorem jumpEnd_calm (opening : Handle) (low dash high : Option Handle) :
    Calm free (jumpEnd opening low dash high) fun _ => [] := by
  unfold jumpEnd
  refine .guard (unexpected_refuses _) (.bind (expect_calm _) fun closing => .bind tokens_calm fun tokens => ?_)
  dsimp only
  split
  · exact .guard (fail_refuses _ (by simp)) (.pure (by simp))
  · exact .pure (by simp)

private theorem hexJump_calm : Calm free hexJump fun _ => [] := by
  refine .bind (expect_calm _) fun opening => .bind (accept_calm _) fun low => .bind (accept_calm _) fun dash => ?_
  cases dash with
  | some _ => exact .bind (accept_calm _) fun high => jumpEnd_calm opening low _ high
  | none => exact jumpEnd_calm opening low none none

theorem hexUnits_calm : ∀ {free} bound, Calm free (hexUnits bound) fun _ => []
  | _, 0 => .pure (by simp)
  | _, bound + 1 => by
    refine .bind peek_calm fun next => ?_
    split
    · refine .bind advance_calm fun token => .bind (textOf_calm token) fun text => .guard (fail_refuses _ (by simp)) ?_
      exact .bind (hexUnits_calm bound) fun units => .pure (by simp)
    · exact .bind hexJump_calm fun jump => .bind (hexUnits_calm bound) fun units => .pure (by simp)
    · have alternative {free : List Handle} : Calm free (do
          let units ← hexUnits bound
          if units.isEmpty then unexpected "hex byte" else return units) fun _ => [] :=
        .bind (hexUnits_calm bound) fun units => .ite (fun _ => .refuse (unexpected_refuses _)) fun _ => .pure (by simp)
      refine .bind advance_calm fun opening => .bind (separated_calm alternative bound) fun alternatives => ?_
      refine .guard (unexpected_refuses _) (.bind (expect_calm _) fun closing => ?_)
      exact .bind (hexUnits_calm bound) fun units => .pure (by simp)
    · exact .pure (by simp)

private theorem hexString_calm : Calm free hexString fun _ => [] := by
  refine .bind (expect_calm _) fun opening => .bind remaining_calm fun bound =>
    .bind (hexUnits_calm bound) fun units => ?_
  refine .guard (unexpected_refuses _) (.bind (expect_calm _) fun closing => .bind tokens_calm fun tokens => ?_)
  exact .bind (breakAfter_calm _ (by simp)) fun _ => .pure (by simp)

private theorem xorKey_calm (token : Handle) : Calm free (xorKey token) fun _ => [] := by
  refine .bind tokens_calm fun tokens => ?_
  split
  · exact .ite (fun _ => .pure (by simp)) fun _ => .refuse (fail_refuses _ (by simp))
  · exact .refuse (fail_refuses _ (by simp))

private theorem xorModifier_calm (first : Handle) : Calm free (xorModifier first) fun _ => [] := by
  refine .bind (accept_calm _) fun opening => ?_
  cases opening with
  | none => exact .pure (by simp)
  | some opening =>
    refine .bind (expect_calm _) fun token => .bind (xorKey_calm token) fun low => .bind (accept_calm _) fun dash => ?_
    have rest {free : List Handle} (high : UInt8) : Calm free (do
        let closing ← expect .closeParen
        return (ModifierKind.xor (some (low, high)), closing)) fun _ =>
          [] := .bind (expect_calm _) fun _ => .pure (by simp)
    cases dash with
    | none => exact rest low
    | some dash =>
      refine .bind (refine_calm _ (by simp)) fun _ => .bind (expect_calm _) fun token' =>
        .bind (xorKey_calm token') fun high => ?_
      exact .guard (fail_refuses _ (by simp)) (rest high)

private theorem alphabet_calm (first : Handle) : Calm free (alphabet first) fun _ => [] := by
  refine .bind (accept_calm _) fun opening => ?_
  cases opening with
  | none => exact .pure (by simp)
  | some opening =>
    refine .bind (expect_calm _) fun token => .bind (checkEscapes_calm token) fun _ => .bind tokens_calm
      fun tokens => ?_
    exact .guard (fail_refuses _ (by simp)) (.bind (expect_calm _) fun closing => .pure (by simp))

private theorem modifier_calm (kind : TokenKind) : Calm free (modifier kind) fun _ => [] := by
  refine .bind advance_calm fun first => ?_
  dsimp only
  split
  · exact .pure (by simp)
  · exact .pure (by simp)
  · exact .pure (by simp)
  · exact .pure (by simp)
  · exact .bind (refine_calm _ (by simp)) fun _ => .pure (by simp)
  · exact .bind (xorModifier_calm first) fun _ => .pure (by simp)
  · exact .bind (alphabet_calm first) fun _ => .pure (by simp)
  · exact .bind (alphabet_calm first) fun _ => .pure (by simp)
  · exact .refuse (unexpected_refuses _)

private theorem checkModifier_calm (content : StringContent) (before : List StringModifier) (m : StringModifier) :
    Calm free (checkModifier content before m) fun _ => [] := by
  refine .guard (fail_refuses _ (by simp)) (.forM (fun other => ?_) before)
  exact .ite (fun _ => .refuse (fail_refuses _ (by simp))) fun _ => .ite (fun _ => .refuse (fail_refuses _ (by simp)))
    fun _ => .pure (by simp)

theorem modifiers_calm (content : StringContent) :
    ∀ {free} bound before, Calm free (modifiers content bound before) fun _ => []
  | _, 0, _ => .pure (by simp)
  | _, bound + 1, before => by
    refine .bind peek_calm fun next => ?_
    cases next with
    | none => exact .pure (by simp)
    | some kind =>
      refine .ite (fun _ => .bind (modifier_calm kind) fun m => ?_) fun _ => .pure (by simp)
      exact .bind (checkModifier_calm content before m) fun _ => modifiers_calm content bound _

/-! ### Strings -/

theorem stringContent_calm : Calm free stringContent fun _ => [] := by
  refine .bind peek_calm fun next => ?_
  split
  · exact .bind advance_calm fun token => .bind (checkEscapes_calm token) fun _ => .pure (by simp)
  · exact .bind hexString_calm fun string => .pure (by simp)
  · exact .bind advance_calm fun token => .bind (readRegexp_calm token) fun _ => .pure (by simp)
  · exact .refuse (unexpected_refuses _)

theorem stringDefinition_calm : Calm free stringDefinition fun _ => [] := by
  refine .bind (expect_calm _) fun id => .bind (refine_calm _ (by simp)) fun _ => .bind (expect_calm _) fun assign => ?_
  refine .bind stringContent_calm fun content => .bind remaining_calm fun bound => ?_
  exact .bind (modifiers_calm content bound []) fun modifiers => .pure (by simp)

theorem addString_calm : Calm free addString fun _ => [] := by
  refine .bind stringDefinition_calm fun string => .bind (textOf_calm _) fun id => .bind get_calm fun s => ?_
  refine .ite (fun _ => aside_calm (fun _ => ⟨rfl, rfl⟩) fun _ => ⟨.inl rfl, .inl rfl⟩) fun _ => ?_
  split
  · exact aside_calm (fun _ => ⟨rfl, rfl⟩) fun _ => ⟨.inl rfl, .inl rfl⟩
  · exact .refuse (fail_refuses _ (by simp))

private theorem stringSection_calm : Calm free stringSection fun _ => [] := by
  refine .bind (expect_calm _) fun keyword => .bind (expect_calm _) fun colon => .bind peek_calm fun next => ?_
  refine .guard (unexpected_refuses _) (.bind remaining_calm fun bound => ?_)
  exact .bind (itemsWhile_calm addString_calm bound) fun _ => .pure (by simp)

theorem optionalStrings_calm : Calm free stringSection? fun _ => [] :=
  .bind peek_calm fun _ => .ite (fun _ => .bind stringSection_calm fun _ => .pure (by simp)) fun _ => .pure (by simp)

/-! ### Modifiers and tags -/

theorem ruleModifiers_calm : ∀ {free} bound before, Calm free (ruleModifiers bound before) fun _ => []
  | _, 0, _ => .pure (by simp)
  | _, bound + 1, before => by
    refine .bind peek_calm fun next => ?_
    cases next with
    | none => exact .pure (by simp)
    | some kind =>
      refine .ite (fun _ => .bind advance_calm fun token => .ite (fun _ => ?_) fun _ => ?_) fun _ => .pure (by simp)
      · exact .bind (textOf_calm token) fun _ => .refuse ((fail_refuses _ (by simp)).bind _)
      · exact ruleModifiers_calm bound _

private theorem tagsAfter_calm : ∀ {free} bound before, Calm free (tagsAfter bound before) fun _ => []
  | _, 0, _ => .pure (by simp)
  | _, bound + 1, before => by
    refine .bind peek_calm fun next => .ite (fun _ => ?_) fun _ => .pure (by simp)
    refine .bind advance_calm fun token => .bind (refine_calm _ (by simp)) fun _ => .bind tokens_calm fun tokens => ?_
    exact .guard (fail_refuses _ (by simp)) (tagsAfter_calm bound _)

theorem tags_calm : Calm free tags fun _ => [] := by
  refine .bind (accept_calm _) fun colon => ?_
  cases colon with
  | none => exact .pure (by simp)
  | some colon =>
    refine .bind remaining_calm fun bound => .bind (tagsAfter_calm bound []) fun tags => ?_
    exact .guard (unexpected_refuses _) (.pure (by simp))

/-! ### Numbers with a sign -/

/-- A step is calm in states with a property. -/
structure CalmFrom {α : Type} (pre : State → Prop) (free : List Handle) (step : Parse α)
    (given : α → List Handle) : Prop where
  onward : ∀ s a s', step s = .ok (a, s') → pre s → Onward free (given a) s s'
  tame : ∀ s e, step s = .error e → pre s → ∀ written, e.problem ≠ .includeCycle written

section

variable {α β : Type} {pre : State → Prop} {m : α → State → Prop} {step : Parse α} {next : α → Parse β}
  {row given : α → List Handle} {last : β → List Handle}

namespace CalmFrom

theorem always (calm : Calm free step given) : CalmFrom pre free step given :=
  ⟨fun s a s' done _ => calm.onward s a s' done, fun s e failed _ => calm.tame s e failed⟩

theorem bind (ensures : Ensures pre step m) (first : CalmFrom pre free step row)
    (rest : ∀ a, CalmFrom (m a) (row a ++ free) (next a) last) : CalmFrom pre free (step >>= next) last where
  onward s b s'' done before := by
    obtain ⟨a, s', found, run⟩ := bind_done done
    have between := ensures s a s' found before
    exact (first.onward s a s' found before).trans ((rest a).onward s' b s'' run between)
  tame s e failed before := by
    rcases bind_failed failed with early | ⟨a, s', found, run⟩
    · exact first.tame s e early before
    · exact (rest a).tame s' e run (ensures s a s' found before)

/-- A step that is calm in all states comes first. -/
theorem after (ensures : Ensures pre step m) (first : Calm free step row)
    (rest : ∀ a, CalmFrom (m a) (row a ++ free) (next a) last) : CalmFrom pre free (step >>= next) last :=
  .bind ensures (.always first) rest

theorem ite {c : Prop} [Decidable c] {other : Parse α} (yes : c → CalmFrom pre free step given)
    (no : ¬ c → CalmFrom pre free other given) : CalmFrom pre free (if c then step else other) given := by
  split_ifs with holds
  · exact yes holds
  · exact no holds

end CalmFrom

theorem CalmFrom.then (first : CalmFrom pre free step row) (rest : ∀ a, Calm (row a ++ free) (next a) last) :
    CalmFrom pre free (step >>= next) last :=
  .bind (m := fun _ _ => True) (fun _ _ _ _ _ => trivial) first fun a => .always (rest a)

end

variable {l : Ledger} {roles : List Role} {spare : List Handle}

private theorem settled_of_gone {s after : TokenStream} {h : Handle} (change : TokenStream.ButFor h s after)
    (gone : after.get? h = none)
    (order : (after.entries.map (·.1)).Sublist (s.entries.map (·.1))) : Settled s after where
  located k a found := by
    by_cases same : k = h
    · cases (same ▸ gone).symm.trans found
    · exact ⟨a, (change.others k same).symm.trans found, rfl⟩
  shaped _ := ⟨change.sound, change.ids, change.sees⟩
  places _ := change.places
  order _ := order

/-- The minus sign before a number is erased, if it can be. -/
theorem dropMinus_run (minus value : Handle) (s : State) : (match s.source.tokens.eraseOne minus with
    | .ok tokens => do modifyTokens fun _ => tokens; return value
    | .error _ => return value : Parse Handle) s =
      .ok (value, s.onTokens fun _ => (s.source.tokens.eraseOne minus).toOption.getD s.source.tokens) := by
  cases s.source.tokens.eraseOne minus <;> rfl

private theorem negativeNumber_calm : CalmFrom (Linking l roles spare) free negativeNumber fun _ => [] := by
  refine .after advance_ensures advance_calm fun minus => .after advance_ensures advance_calm fun value => ?_
  refine .after (Links.passes tokens_links) tokens_calm fun tokens => ?_
  dsimp only
  split
  · exact .always (.refuse (fail_refuses _ (by simp)))
  next negated found =>
    refine .after (modify_ensures fun _ _ => negated_plain found) (setLiteral_calm negated (by simp)) fun _ => ?_
    refine ⟨fun s a s' done link => ?_, fun s e failed link => ?_⟩
    · cases (dropMinus_run minus value s).symm.trans done
      cases erased : s.source.tokens.eraseOne minus with
      | error e => exact .refl s (List.nil_subset _)
      | ok left =>
        have loose := link.loose minus (by simp)
        obtain ⟨change, gone⟩ :=
          link.sound.eraseOne_butFor link.distinct loose.own loose.bare (link.unnamed (by simp)) erased
        have order := link.sound.eraseOne_handles link.distinct loose.own (TokenStream.id_of_ids change.ids) erased
        refine ⟨rfl, ⟨.inl rfl, .inl rfl⟩, settled_of_gone change gone order, [], rfl, List.nil_subset _,
          fun k outside => change.others k ?_⟩
        rintro rfl
        simp at outside
    · cases (dropMinus_run minus value s).symm.trans failed

private theorem metaValue_calm : CalmFrom (Linking l roles spare) free metaValue fun _ => [] := by
  refine .after (Links.passes peek_links) peek_calm fun next => ?_
  split
  · exact .always (.bind advance_calm fun token => .bind (checkEscapes_calm token) fun _ => .pure (by simp))
  · exact .always advance_calm.forget
  · exact .always advance_calm.forget
  · refine .after (Links.passes (peekAt_links 1)) (peekAt_calm 1) fun _ => ?_
    exact .ite (fun _ => negativeNumber_calm) fun _ => .always (.refuse (unexpected_refuses _))
  · exact .always (.refuse (unexpected_refuses _))

private theorem metaEntry_calm : CalmFrom (Linking l roles spare) free metaEntry fun _ => [] := by
  refine .after (expect_ensures _) (expect_calm _)
    fun key => .after (modify_ensures fun _ own => own) (refine_calm _ (by simp)) fun _ => ?_
  refine .after (expect_links _).passes (expect_calm _) fun assign => ?_
  exact metaValue_calm.then fun value => .pure (by simp)

private theorem metaEntries_calm {starts : TokenKind → Bool} : ∀ {free} bound,
    CalmFrom (Linking l roles spare) free (itemsWhile starts metaEntry bound) fun _ => []
  | _, 0 => .always (.pure (by simp))
  | _, bound + 1 => by
    refine .after (Links.passes peek_links) peek_calm fun next => .ite (fun _ => ?_) fun _ => .always (.pure (by simp))
    refine .bind (Links.passes metaEntry_links) metaEntry_calm fun first => ?_
    exact (metaEntries_calm bound).then fun _ => .pure (by simp)

private theorem metaSection_calm : CalmFrom (Linking l roles spare) free metaSection fun _ => [] := by
  refine .after (expect_links _).passes (expect_calm _) fun keyword =>
    .after (expect_links _).passes (expect_calm _) fun colon => ?_
  refine .after remaining_links.passes remaining_calm fun bound => ?_
  exact (metaEntries_calm bound).then fun _ => .pure (by simp)

theorem optionalMetas_calm : CalmFrom (Linking l roles spare) free metaSection? fun _ => [] := by
  refine .after (Links.passes peek_links) peek_calm fun next => .ite (fun _ => ?_) fun _ => .always (.pure (by simp))
  exact metaSection_calm.then fun _ => .pure (by simp)

/-! ### Rules -/

theorem ruleHead_calm : CalmFrom (Linking l roles spare) free ruleHead fun head => [head.keyword] := by
  refine .after remaining_links.passes remaining_calm fun bound => ?_
  refine .after (ruleModifiers_links bound []).passes (ruleModifiers_calm bound []) fun modifiers => ?_
  refine .after (expect_links _).passes (expect_calm _) fun keyword =>
    .after (expect_ensures _) (expect_calm _) fun name => ?_
  refine .after (modify_ensures fun _ own => own) (refine_calm _ (by simp))
    fun _ => .after (textOf_links name).passes (textOf_calm name) fun text => ?_
  refine .after get_links.passes get_calm fun s =>
    .ite (fun _ => .always (.refuse ((fail_refuses _ (by simp)).bind _))) fun _ => ?_
  refine .after tags_links.passes tags_calm fun (tagColon, tags) => .after (expect_ensures _) (expect_calm _)
    fun opening => ?_
  refine .after (modify_ensures fun _ own => own) (refine_calm _ (by simp)) fun _ => ?_
  refine .after (m := fun _ => Linking { l with strings := {} } roles (opening :: name :: spare))
    (.modify fun s link => ?_)
    (aside_calm (fun _ => ⟨rfl, rfl⟩) fun _ => ⟨.inr rfl, .inr rfl⟩) fun _ => optionalMetas_calm.then
      fun (metaSection, metas) => ?_
  · exact link.restock (t := { s with strings := {}, scopes := [], stringLoops := 0 }) rfl rfl rfl rfl nofun
  · exact .bind optionalStrings_calm fun stringSection => .bind (expect_calm _) fun keyword' => .bind (expect_calm _)
      fun colon => .pure (by simp)

theorem ruleTail_calm {head : RuleHead} {row : Rule → List Handle} (known : ∀ rule, rule.keyword = head.keyword →
    row rule ⊆ free) (condition : Expr) : Calm free (ruleTail head condition) row := by
  refine .bind (expect_calm _) fun closing => .bind (refine_calm _ (by simp))
    fun _ => .bind (locationOf_calm _) fun start => ?_
  refine .bind (locationOf_calm _) fun stop => .bind (textOf_calm _) fun text => .bind get_calm fun s => ?_
  refine .bind (aside_calm (fun _ => ⟨rfl, rfl⟩) fun _ => ⟨.inl rfl, .inl rfl⟩) fun _ => .pure ?_
  exact List.Subset.trans (known _ rfl) (by simp)

/-- What does not belong to a rule stays as it is while the rule is read. -/
theorem rule_calm : CalmFrom (Linking l roles spare) [] rule fun rule => [rule.keyword] :=
  ruleHead_calm.then fun _ => .bind condition_calm fun condition =>
    ruleTail_calm (fun rule same => by simp [same]) condition

end YaraRules.Grammar
