import YaraRules.Grammar.Strings
import YaraRules.Proofs.ReadNames

/-! What reading leaves as it is. A step changes the tokens that it reads and no others, it
moves none of them, and all that concerns files is the business of include directives
alone. Only these can end the reading because of a cycle. -/

namespace YaraRules.Grammar

open TokenStream (ButFor)

/-- What no step inside a rule changes. -/
structure Surroundings where
  settings : Settings
  tree : FileTree
  path : Option String
  nextId : ChainId
  opened : List FileTree.Place
  included : List FileTree.Place
  imports : List Import
  rules : List Rule

def State.around (s : State) : Surroundings where
  settings := s.settings
  tree := s.tree
  path := s.source.path
  nextId := s.nextId
  opened := s.opened
  included := s.included
  imports := s.imports
  rules := s.rules

/-- Tokens may have changed, but each stands where it stood. -/
structure Settled (s after : TokenStream) : Prop where
  located : ∀ h a, after.get? h = some a → ∃ b, s.get? h = some b ∧ a.location = b.location
  shaped : s.Sound → after.Sound ∧ after.ids = s.ids ∧ ∀ k target, after.Sees k target ↔ s.Sees k target
  /-- No token of the stream itself comes to own another stream. -/
  places : s.Sound → after.nested.map (·.1) = s.nested.map (·.1)
  order : s.Sound → (after.entries.map (·.1)).Sublist (s.entries.map (·.1))

theorem Settled.refl (s : TokenStream) : Settled s s where
  located _ a found := ⟨a, found, rfl⟩
  shaped sound := ⟨sound, rfl, fun _ _ => .rfl⟩
  places _ := rfl
  order _ := .refl _

theorem Settled.trans {s between after : TokenStream} (first : Settled s between) (second : Settled between after) :
    Settled s after where
  located h a found := by
    obtain ⟨b, middle, same⟩ := second.located h a found
    obtain ⟨c, start, before⟩ := first.located h b middle
    exact ⟨c, start, same.trans before⟩
  shaped sound := by
    obtain ⟨sound', ids, sees⟩ := first.shaped sound
    obtain ⟨sound'', ids', sees'⟩ := second.shaped sound'
    exact ⟨sound'', ids'.trans ids, fun k target => (sees' k target).trans (sees k target)⟩
  places sound := (second.places (first.shaped sound).1).trans (first.places sound)
  order sound := (second.order (first.shaped sound).1).trans (first.order sound)

private theorem settled_modify (s : TokenStream) (h : Handle) {f : Token → Token}
    (kept : ∀ a, (f a).location = a.location) : Settled s (s.modify h f) where
  located k a found := by
    rw [TokenStream.get?_modify] at found
    split_ifs at found with same
    · obtain ⟨b, stored, rfl⟩ := Option.map_eq_some_iff.mp found
      exact ⟨b, same ▸ stored, kept b⟩
    · exact ⟨a, found, rfl⟩
  shaped sound :=
    have change := sound.modify_butFor h f
    ⟨change.sound, change.ids, change.sees⟩
  places sound := (sound.modify_butFor h f).places
  order _ := by rw [TokenStream.handles_modify]

/-- The loops around what is read are the same, or they were forgotten because another rule begins. -/
structure Nesting (s s' : State) : Prop where
  scopes : s'.scopes = s.scopes ∨ s'.scopes = []
  stringLoops : s'.stringLoops = s.stringLoops ∨ s'.stringLoops = 0

theorem Nesting.refl (s : State) : Nesting s s := ⟨.inl rfl, .inl rfl⟩

theorem Nesting.trans {s between s' : State} (first : Nesting s between) (second : Nesting between s') :
    Nesting s s' where
  scopes := second.scopes.elim (fun same => same ▸ first.scopes) .inr
  stringLoops := second.stringLoops.elim (fun same => same ▸ first.stringLoops) .inr

/-- The source was read on, and no tokens were changed but those that were read and some that were free. -/
structure Onward (free given : List Handle) (s s' : State) : Prop where
  around : s'.around = s.around
  nesting : Nesting s s'
  settled : Settled s.source.tokens s'.source.tokens
  read : ∃ taken, s.source.rest = taken ++ s'.source.rest ∧ given ⊆ free ++ taken ∧
    ∀ h, h ∉ free ++ taken → s'.source.tokens.get? h = s.source.tokens.get? h

theorem Onward.refl {free given : List Handle} (s : State) (known : given ⊆ free) : Onward free given s s :=
  ⟨rfl, .refl s, .refl _, [], rfl, by simpa using known, fun _ _ => rfl⟩

theorem Onward.trans {free given more : List Handle} {s between s' : State} (first : Onward free given s between)
    (second : Onward (given ++ free) more between s') : Onward free more s s' := by
  obtain ⟨taken, rest, known, others⟩ := first.read
  obtain ⟨further, rest', known', others'⟩ := second.read
  have within : given ++ free ++ further ⊆ free ++ (taken ++ further) := by
    intro h member
    simp only [List.mem_append] at member ⊢
    rcases member with (one | two) | three
    · exact (List.mem_append.mp (known one)).imp_right .inl
    · exact .inl two
    · exact .inr (.inr three)
  refine ⟨second.around.trans first.around, first.nesting.trans second.nesting, first.settled.trans second.settled,
    taken ++ further, ?_, fun h member => within (known' member), fun h outside => ?_⟩
  · rw [rest, rest', List.append_assoc]
  · have early : h ∉ free ++ taken := fun inside => outside (by
      rw [← List.append_assoc]
      exact List.mem_append_left _ inside)
    exact (others' h fun inside => outside (within inside)).trans (others h early)

/-- A step reads on, and it does not fail because of a cycle of files. -/
structure Calm {α : Type} (free : List Handle) (step : Parse α) (given : α → List Handle) : Prop where
  onward : ∀ s a s', step s = .ok (a, s') → Onward free (given a) s s'
  tame : ∀ s e, step s = .error e → ∀ written, e.problem ≠ .includeCycle written

/-- A step fails, and not because of a cycle of files. -/
def Refuses {α : Type} (step : Parse α) : Prop :=
  ∀ s, ∃ e, step s = .error e ∧ ∀ written, e.problem ≠ .includeCycle written

section

variable {α β : Type} {free : List Handle} {step : Parse α} {next : α → Parse β} {row given : α → List Handle}
  {last : β → List Handle}

theorem bind_failed {s : State} {e : ParseError} (failed : (step >>= next) s = .error e) :
    step s = .error e ∨ ∃ a s', step s = .ok (a, s') ∧ next a s' = .error e := by
  have run : (step s >>= fun result => next result.1 result.2) = .error e := failed
  cases found : step s with
  | error e' =>
    rw [found] at run
    exact .inl (by cases run; rfl)
  | ok result =>
    rw [found] at run
    exact .inr ⟨result.1, result.2, rfl, run⟩

theorem Refuses.bind (refuses : Refuses step) (next : α → Parse β) : Refuses (step >>= next) := by
  intro s
  obtain ⟨e, failed, other⟩ := refuses s
  refine ⟨e, ?_, other⟩
  show (step s >>= fun result => next result.1 result.2) = .error e
  rw [failed]
  rfl

theorem Refuses.tame (refuses : Refuses step) {s : State} {e : ParseError} (failed : step s = .error e) :
    ∀ written, e.problem ≠ .includeCycle written := by
  obtain ⟨e', failed', other⟩ := refuses s
  cases failed.symm.trans failed'
  exact other

theorem fail_refuses (h : Handle) {problem : Problem} (other : ∀ written, problem ≠ .includeCycle written) :
    Refuses (fail h problem : Parse α) := fun _ => ⟨_, rfl, other⟩

theorem unexpected_refuses (expected : String) : Refuses (unexpected expected : Parse α) := by
  intro s
  obtain ⟨e, same, other⟩ : ∃ e, (unexpected expected : Parse α) s = .error e ∧ ∃ found,
    e.problem = .syntaxError found expected := by
    cases read : s.source.rest with
    | nil =>
      exact ⟨_, by
        simp [unexpected, read, bind, StateT.bind, get, getThe, MonadStateOf.get, StateT.get, pure, Except.pure,
          Except.bind]
        rfl, _, rfl⟩
    | cons h rest =>
      exact ⟨_, by
        simp [unexpected, read, bind, StateT.bind, get, getThe, MonadStateOf.get, StateT.get, pure, Except.pure,
          Except.bind]
        rfl, _, rfl⟩
  obtain ⟨found, problem⟩ := other
  exact ⟨e, same, fun written cycle => by rw [problem] at cycle; cases cycle⟩

namespace Calm

theorem pure {a : α} (known : given a ⊆ free) : Calm free (pure a : Parse α) given where
  onward s b s' done := by
    cases done
    exact .refl s known
  tame _ _ failed := by cases failed

theorem bind (first : Calm free step row) (rest : ∀ a, Calm (row a ++ free) (next a) last) :
    Calm free (step >>= next) last where
  onward s b s'' done := by
    obtain ⟨a, s', found, run⟩ := bind_done done
    exact (first.onward s a s' found).trans ((rest a).onward s' b s'' run)
  tame s e failed := by
    rcases bind_failed failed with early | ⟨a, s', found, run⟩
    · exact first.tame s e early
    · exact (rest a).tame s' e run

theorem refuse (refuses : Refuses step) : Calm free step given where
  onward s a s' done := by
    obtain ⟨e, failed, _⟩ := refuses s
    cases failed.symm.trans done
  tame _ _ := refuses.tame

theorem ite {c : Prop} [Decidable c] {other : Parse α} (yes : c → Calm free step given)
    (no : ¬ c → Calm free other given) : Calm free (if c then step else other) given := by
  split_ifs with holds
  · exact yes holds
  · exact no holds

theorem guard {c : Prop} [Decidable c] {rest : Parse β} (refuses : Refuses step) (calm : Calm free rest last) :
    Calm free (if c then step >>= next else rest) last :=
  .ite (fun _ => .refuse (refuses.bind next)) fun _ => calm

theorem forget (calm : Calm free step given) : Calm free step fun _ => [] where
  onward s a s' done := by
    obtain ⟨around, nesting, settled, taken, rest, _, others⟩ := calm.onward s a s' done
    exact ⟨around, nesting, settled, taken, rest, List.nil_subset _, others⟩
  tame := calm.tame

theorem forM {check : α → Parse PUnit} (each : ∀ a, Calm free (check a) fun _ => []) (items : List α) :
    Calm free (items.forM check) fun _ => [] := by
  induction items with
  | nil => exact .pure (by simp)
  | cons item rest ih => exact .bind (each item) fun _ => ih

theorem mapM {look : α → Parse β} (each : ∀ a, Calm free (look a) fun _ => []) (items : List α) :
    Calm free (items.mapM look) fun _ => [] := by
  induction items with
  | nil => exact .pure (by simp)
  | cons item rest ih =>
    rw [List.mapM_cons]
    exact .bind (each item) fun _ => .bind ih fun _ => .pure (by simp)

theorem still (same : ∀ s, ∃ a, step s = .ok (a, s)) : Calm free step fun _ => [] where
  onward s a s' done := by
    obtain ⟨b, run⟩ := same s
    cases run.symm.trans done
    exact .refl s (List.nil_subset _)
  tame s e failed := by
    obtain ⟨b, run⟩ := same s
    cases run.symm.trans failed

end Calm

end

variable {α : Type} {free : List Handle}

/-! ### Elementary steps -/

theorem tokens_calm : Calm free tokens fun _ => [] := .still fun _ => ⟨_, rfl⟩

theorem textOf_calm (h : Handle) : Calm free (textOf h) fun _ => [] := .still fun _ => ⟨_, rfl⟩

theorem locationOf_calm (h : Handle) : Calm free (locationOf h) fun _ => [] := .still fun _ => ⟨_, rfl⟩

theorem get_calm : Calm free (get : Parse State) fun _ => [] := .still fun _ => ⟨_, rfl⟩

theorem peekAt_calm (n : Nat) : Calm free (peekAt? n) fun _ => [] := .still fun _ => ⟨_, rfl⟩

theorem peek_calm : Calm free peek? fun _ => [] := peekAt_calm 0

theorem peekHandle_calm (n : Nat) : Calm free (peekHandle? n) fun _ => [] := .still fun _ => ⟨_, rfl⟩

theorem remaining_calm : Calm free remaining fun _ => [] := .still fun _ => ⟨_, rfl⟩

private theorem advance_eq (s : State) : advance s = (match s.source.rest with
    | h :: rest => .ok (h, { s with source := { s.source with rest } })
    | [] => unexpected "more input" s) := by
  show (match s.source.rest with
    | h :: rest => do
      modify fun s => { s with source := { s.source with rest } }
      return h
    | [] => unexpected "more input" : Parse Handle) s = _
  cases s.source.rest <;> rfl

theorem advance_calm : Calm free advance fun h => [h] where
  onward s h s' done := by
    obtain ⟨rest, read, rfl⟩ := advance_done done
    exact ⟨rfl, ⟨.inl rfl, .inl rfl⟩, .refl _, [h], read, by simp, fun _ _ => rfl⟩
  tame s e failed := by
    rw [advance_eq] at failed
    split at failed
    · cases failed
    · exact (unexpected_refuses _).tame failed

private theorem modify_calm {h : Handle} {f : Token → Token} (kept : ∀ a, (f a).location = a.location)
    (known : h ∈ free) : Calm free (modifyTokens (·.modify h f)) fun _ => [] where
  onward s a s' done := by
    cases done
    refine ⟨rfl, ⟨.inl rfl, .inl rfl⟩, settled_modify _ h kept, [], rfl, List.nil_subset _, fun k outside => ?_⟩
    have apart : k ≠ h := fun same => outside (List.mem_append_left _ (same ▸ known))
    exact (TokenStream.get?_modify _ h f k).trans (if_neg apart)
  tame _ _ failed := by cases failed

theorem refine_calm {h : Handle} (kind : TokenKind) (known : h ∈ free) : Calm free (refine h kind) fun _ => [] :=
  modify_calm (fun _ => rfl) known

theorem setLiteral_calm {h : Handle} (literal : Literal) (known : h ∈ free) :
    Calm free (setLiteral h literal) fun _ => [] :=
  modify_calm (fun _ => rfl) known

theorem breakAfter_calm {h : Handle} (wanted : Bool) (known : h ∈ free) :
    Calm free (breakAfter h wanted) fun _ => [] :=
  modify_calm (fun _ => rfl) known

/-- What does not concern the source or its surroundings is put aside. -/
theorem aside_calm {f : State → State} (same : ∀ s, (f s).source = s.source ∧ (f s).around = s.around)
    (nesting : ∀ s, Nesting s (f s)) : Calm free (modify f) fun _ => [] where
  onward s a s' done := by
    cases done
    obtain ⟨source, around⟩ := same s
    refine ⟨around, nesting s, source ▸ .refl _, [], by rw [source]; rfl, List.nil_subset _, fun _ _ => ?_⟩
    show (f s).source.tokens.get? _ = _
    rw [source]
  tame _ _ failed := by cases failed

/-- What is changed for a step is put back afterwards. -/
theorem Calm.enclosed {β : Type} {step : Parse α} {given : α → List Handle} {f : α → β} {enter : State → State}
    (leave : State → State → State) (calm : Calm free step given)
    (entering : ∀ s, (enter s).source = s.source ∧ (enter s).around = s.around)
    (leaving : ∀ s t, (leave s t).source = t.source ∧ (leave s t).around = t.around)
    (nesting : ∀ s t, Nesting (enter s) t → Nesting s (leave s t)) : Calm free (do
      let s ← get
      modify enter
      let a ← step
      modify (leave s)
      return f a) fun _ => [] where
  onward s b s' done := by
    have run : (step (enter s) >>= fun result => .ok (f result.1, leave s result.2)) = .ok (b, s') := done
    cases found : step (enter s) with
    | error e =>
      rw [found] at run
      cases run
    | ok result =>
      obtain ⟨a, t⟩ := result
      rw [found] at run
      cases run
      obtain ⟨around, kept, settled, taken, rest, _, others⟩ := calm.onward _ a t found
      obtain ⟨source, same⟩ := entering s
      obtain ⟨source', same'⟩ := leaving s t
      rw [source] at settled rest others
      rw [← source'] at settled rest others
      exact ⟨same'.trans (around.trans same), nesting s t kept, settled, taken, rest, List.nil_subset _, others⟩
  tame s e failed := by
    have run : (step (enter s) >>= fun result => .ok (f result.1, leave s result.2)) = .error e := failed
    cases found : step (enter s) with
    | error e' =>
      rw [found] at run
      cases run
      exact calm.tame _ _ found
    | ok result =>
      rw [found] at run
      cases run

theorem expect_calm (kind : TokenKind) : Calm free (expect kind) fun h => [h] :=
  .bind peek_calm fun _ => .ite (fun _ => advance_calm) fun _ => .refuse (unexpected_refuses _)

theorem accept_calm (kind : TokenKind) : Calm free (accept? kind) Option.toList :=
  .bind peek_calm fun _ => .ite (fun _ => .bind advance_calm fun _ => .pure (by simp)) fun _ => .pure (by simp)

theorem itemsWhile_calm {starts : TokenKind → Bool} {item : Parse α} {row : α → List Handle}
    (each : ∀ {free}, Calm free item row) : ∀ {free} bound, Calm free (itemsWhile starts item bound) fun items =>
    items.flatMap row
  | _, 0 => .pure (by simp)
  | _, bound + 1 => .bind peek_calm fun _ => .ite
    (fun _ => .bind each fun _ => .bind (itemsWhile_calm each bound) fun _ => .pure (by simp)) fun _ => .pure (by simp)

theorem separated_calm {separator : TokenKind} {item : Parse α} {row : α → List Handle}
    (each : ∀ {free}, Calm free item row) :
    ∀ {free} bound, Calm free (separated separator item bound) fun items => items.flatMap row
  | _, 0 => .bind each fun _ => .pure (by simp)
  | _, bound + 1 => .bind each fun _ => .bind (accept_calm separator) fun next => by
    cases next with
    | none => exact .pure (by simp)
    | some _ =>
      refine .bind (separated_calm each bound) fun _ => .pure fun h member => ?_
      rcases List.mem_append.mp (List.flatMap_cons ▸ member) with first | later
      · simp [first]
      · exact List.mem_append_left _ later

theorem checkEscapes_calm (h : Handle) : Calm free (checkEscapes h) fun _ => [] := by
  refine .bind tokens_calm fun tokens => ?_
  split
  · split
    · exact .pure (by simp)
    · exact .bind (textOf_calm h) fun _ => .refuse (fail_refuses _ (by simp))
  · exact .pure (by simp)

theorem readRegexp_calm (h : Handle) : Calm free (readRegexp h) fun _ => [] := by
  refine .bind (textOf_calm h) fun text => ?_
  split
  · exact .pure (by simp)
  · exact .refuse (fail_refuses _ (by simp))

end YaraRules.Grammar
