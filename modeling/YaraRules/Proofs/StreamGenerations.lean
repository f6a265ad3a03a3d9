import YaraRules.Proofs.StreamDepths
import YaraRules.Proofs.StreamTexts

/-! What becomes of the slots of chains. Whatever is done to streams, a slot counts on
by one when its token leaves it and never otherwise, and a token that does not leave
stays where it is. This holds for every chain of the streams, at any depth, and does
not depend on their links. -/

namespace YaraRules.Chain

variable {α : Type}

/-- The items named by `gone` left their slots, which counted on; no other item left. -/
structure Turned (c after : Chain α) (gone : List Handle) : Prop where
  id : after.id = c.id
  generation : ∀ index, after.generationAt index =
    if (c.itemAt? index).isSome ∧ c.handle index ∈ gone then c.generationAt index + 1 else c.generationAt index
  kept : ∀ index, (c.itemAt? index).isSome → c.handle index ∉ gone → (after.itemAt? index).isSome

/-- Handle of the item in a slot, if there is one. -/
def occupant? (c : Chain α) (index : Nat) : Option Handle := (c.itemAt? index).map fun _ => c.handle index

theorem contains_iff_handle (c : Chain α) (h : Handle) :
    c.contains h = true ↔ (c.itemAt? h.index).isSome ∧ c.handle h.index = h := by
  obtain ⟨chain, index, generation⟩ := h
  simp only [contains, index?, itemAt?, handle, generationAt]
  cases c.slots[index]? with
  | none => simp
  | some slot => cases item : slot.item <;> (simp [item]; try grind)

theorem id_of_contains {c : Chain α} {h : Handle} (held : c.contains h = true) : h.chain = c.id := by
  rw [← ((c.contains_iff_handle h).mp held).2]
  rfl

namespace Turned

variable {c middle after : Chain α} {gone : List Handle}

/-- Slots whose items and generations are the same show no difference. -/
theorem of_same (id : after.id = c.id) (generation : ∀ index, after.generationAt index = c.generationAt index)
    (kept : ∀ index, (c.itemAt? index).isSome → (after.itemAt? index).isSome)
    (others : ∀ index, (c.itemAt? index).isSome → c.handle index ∉ gone) : c.Turned after gone := by
  refine ⟨id, fun index => ?_, fun index occupied _ => kept index occupied⟩
  rw [generation, if_neg]
  rintro ⟨occupied, left⟩
  exact others index occupied left

theorem refl (c : Chain α) : c.Turned c [] := of_same rfl (fun _ => rfl) (fun _ occupied => occupied) (by simp)

/-- What leaves later was there from the start. -/
theorem trans {later : List Handle} (first : c.Turned middle gone) (second : middle.Turned after later)
    (old : ∀ index, middle.handle index ∈ later → c.contains (middle.handle index) = true) :
    c.Turned after (gone ++ later) := by
  have same : ∀ index, middle.generationAt index = c.generationAt index → middle.handle index = c.handle index := by
    intro index generation
    simp [handle, first.id, generation]
  refine ⟨second.id.trans first.id, fun index => ?_, fun index occupied stays => ?_⟩
  · rw [second.generation index, first.generation index]
    by_cases left : (c.itemAt? index).isSome ∧ c.handle index ∈ gone
    · have again : ¬((middle.itemAt? index).isSome ∧ middle.handle index ∈ later) := by
        rintro ⟨_, listed⟩
        have held := ((c.contains_iff_handle _).mp (old index listed)).2
        have counted := first.generation index
        rw [if_pos left] at counted
        have equal : c.generationAt index = c.generationAt index + 1 :=
          (congrArg Handle.generation held).trans counted
        simp at equal
      rw [if_neg again, if_pos left, if_pos ⟨left.1, by simp [left.2]⟩]
    · have counted := first.generation index
      rw [if_neg left] at counted
      rw [if_neg left, same index counted]
      by_cases occupied : (c.itemAt? index).isSome
      · have stays : c.handle index ∉ gone := fun listed => left ⟨occupied, listed⟩
        simp [occupied, stays, first.kept index occupied stays]
      · have absent : c.handle index ∉ later := by
          intro listed
          rw [← same index counted] at listed
          exact occupied ((c.contains_iff_handle _).mp (old index listed)).1
        simp [occupied, absent]
  · obtain ⟨early, late⟩ : c.handle index ∉ gone ∧ c.handle index ∉ later := by simpa using stays
    have counted := first.generation index
    rw [if_neg fun left => early left.2] at counted
    exact second.kept index (first.kept index occupied early) (same index counted ▸ late)

private theorem trans_still (first : c.Turned middle gone) (second : middle.Turned after []) : c.Turned after gone := by
  simpa using first.trans second (by simp)

theorem widen (turned : c.Turned after []) (others : ∀ h ∈ gone, h.chain ≠ c.id) : c.Turned after gone := by
  refine of_same turned.id (fun index => ?_) (fun index occupied => turned.kept index occupied (by simp)) ?_
  · simpa using turned.generation index
  · intro index _ listed
    exact others _ listed rfl

theorem handle_eq (turned : c.Turned after gone) {index : Nat} (stays : c.handle index ∉ gone) :
    after.handle index = c.handle index := by
  have counted := turned.generation index
  rw [if_neg fun left => stays left.2] at counted
  simp [handle, turned.id, counted]

theorem contains (turned : c.Turned after gone) {h : Handle} (held : c.contains h = true) (stays : h ∉ gone) :
    after.contains h = true := by
  obtain ⟨occupied, named⟩ := (c.contains_iff_handle h).mp held
  rw [← named] at stays
  refine (after.contains_iff_handle h).mpr ⟨turned.kept _ occupied stays, ?_⟩
  rw [turned.handle_eq stays, named]

theorem not_contains (turned : c.Turned after gone) {h : Handle} (held : c.contains h = true) (left : h ∈ gone) :
    after.contains h = false := by
  obtain ⟨occupied, named⟩ := (c.contains_iff_handle h).mp held
  rw [Bool.eq_false_iff]
  intro again
  have same := (congrArg Handle.generation ((after.contains_iff_handle h).mp again).2)
  have counted := turned.generation h.index
  rw [if_pos ⟨occupied, named ▸ left⟩] at counted
  have before := congrArg Handle.generation named
  simp only [handle] at same before
  rw [counted, before] at same
  simp at same

end Turned

private theorem turned_insertAt (c : Chain α) (before : Option Nat) (item : α) :
    c.Turned (c.insertAt before item).2 [] := by
  have linked : ∀ d : Chain α, ∀ index, d.Turned (d.linkBefore index before) [] := by
    intro d index
    refine .of_same ?_ (fun other => by simp) (fun other => by simp) (by simp)
    unfold linkBefore
    cases before <;> cases d.placeBefore _ <;> rfl
  have allocated : c.Turned (c.allocate item).2 [] := by
    unfold allocate
    cases c.free with
    | nil =>
      refine .of_same rfl (fun index => ?_) (fun index occupied => ?_) (by simp)
      · simp only [generationAt, Array.getElem?_push]
        split_ifs with same
        · simp [same]
        · rfl
      · simp only [itemAt?, Array.getElem?_push] at occupied ⊢
        split_ifs
        · rfl
        · exact occupied
    | cons new rest =>
      refine .of_same rfl (fun index => ?_) (fun index occupied => ?_) (by simp)
      · simp only [generationAt, Array.getElem?_modify]
        split_ifs
        · cases c.slots[index]? <;> rfl
        · rfl
      · simp only [itemAt?, Array.getElem?_modify] at occupied ⊢
        split_ifs
        · cases found : c.slots[index]? with
          | none => simp [found] at occupied
          | some slot => rfl
        · exact occupied
  exact allocated.trans_still (linked _ _)

private theorem turned_modify (c : Chain α) (h : Handle) (f : α → α) : c.Turned (c.modify h f) [] := by
  refine .of_same (c.id_modify h f) (fun index => ?_) (fun index occupied => ?_) (by simp)
  · exact congrArg Handle.generation (c.handle_modify h f index)
  · simp only [itemAt?, slots_modify] at occupied ⊢
    cases found : c.slots[index]? with
    | none => simp [found] at occupied
    | some slot =>
      have stored : slot.item.isSome = true := by simpa [found] using occupied
      simp only [Option.map_some, Option.bind_eq_bind, Option.bind_some]
      split_ifs
      · simpa using stored
      · exact stored

private theorem turned_mapItems (c : Chain α) (f : α → α) : c.Turned (c.mapItems f) [] := by
  refine .of_same rfl (fun index => ?_) (fun index occupied => ?_) (by simp)
  · simp only [generationAt, mapItems, Array.getElem?_map]
    cases c.slots[index]? <;> rfl
  · simp only [itemAt?, mapItems, Array.getElem?_map] at occupied ⊢
    cases found : c.slots[index]? with
    | none => simp [found] at occupied
    | some slot => simpa [found] using occupied

private theorem turned_vacate {c : Chain α} {h : Handle} {index : Nat} (found : c.index? h = some index) :
    c.Turned (c.vacate index) [h] := by
  have named := handle_of_index? found
  obtain ⟨occupied, place⟩ : (c.itemAt? index).isSome ∧ h.index = index := by
    rw [← named] at found ⊢
    have held := (c.contains_iff_handle (c.handle index)).mp (by rw [contains, found]; rfl)
    exact ⟨held.1, rfl⟩
  cases stored : c.slots[index]? with
  | none => simp [itemAt?, stored] at occupied
  | some slot =>
    refine ⟨(frame_vacate stored).1, fun other => ?_, fun other here stays => ?_⟩
    · simp only [generationAt, slots_vacate stored]
      by_cases same : index = other
      · subst same
        rw [if_pos ⟨occupied, by simp [named]⟩]
        simp [stored]
      · rw [if_neg]
        · cases c.slots[other]? <;> simp [same]
        · rintro ⟨_, listed⟩
          have equal : c.handle other = h := by simpa using listed
          exact same (place.symm.trans (congrArg Handle.index equal).symm)
    · rw [itemAt?_vacate stored, if_neg]
      · exact here
      · rintro rfl
        exact stays (by simp [named])

end YaraRules.Chain

namespace YaraRules.TokenStream

/-- Nothing left any of the chains, at whatever depth. -/
def Steady (s after : TokenStream) : Prop := List.Forall₂ (fun c d : Chain Token => c.Turned d []) s.chains after.chains

namespace Steady

variable {s middle after : TokenStream}

theorem refl (s : TokenStream) : Steady s s := List.forall₂_same.mpr fun c _ => .refl c

theorem trans (first : Steady s middle) (second : Steady middle after) : Steady s after :=
  forall₂_compose (fun _ _ _ one other => one.trans_still other) first second

theorem top (steady : Steady s after) : s.chain.Turned after.chain [] := by
  unfold Steady at steady
  rw [chains_eq, chains_eq] at steady
  cases steady with
  | cons one _ => exact one

theorem modify (steady : Steady s after) (h : Handle) (f : Token → Token) : Steady s (after.modify h f) := by
  apply steady.trans
  rw [modify_eq]
  cases held : after.owner? h.chain with
  | none =>
    rw [modifyOwner_absent held]
    exact .refl after
  | some owner =>
    obtain ⟨front, back, split, changed⟩ := chains_modifyOwner held
    unfold Steady
    rw [split, changed]
    have same : ∀ part : List (Chain Token), List.Forall₂ (fun c d : Chain Token => c.Turned d []) part part :=
      fun part => List.forall₂_same.mpr fun c _ => .refl c
    refine List.rel_append (same front) (List.rel_append ?_ (same back))
    rw [chains_eq, chains_eq]
    exact .cons (owner.chain.turned_modify h f) (same _)

theorem copyTarget (steady : Steady s after) (h target : Handle) : Steady s (after.copyTarget h target) := by
  unfold TokenStream.copyTarget
  cases after.resolve? target with
  | none => exact steady
  | some literal => exact steady.modify h _

theorem detachAliases (steady : Steady s after) (targets : List Handle) : Steady s (after.detachAliases targets) := by
  unfold TokenStream.detachAliases
  generalize List.filterMap _ _ = aliases
  induction aliases generalizing after with
  | nil => exact steady
  | cons pair rest ih => exact ih (steady.copyTarget pair.1 pair.2)

theorem settleAlias (steady : Steady s after) (moved handles : List Handle) :
    Steady s (handles.foldl (TokenStream.settleAlias moved) after) := by
  induction handles generalizing after with
  | nil => exact steady
  | cons h rest ih =>
    apply ih
    unfold TokenStream.settleAlias
    cases (after.get? h).bind (·.literal.aliasTarget?) with
    | none => exact steady
    | some target =>
      simp only
      split_ifs
      · exact steady
      · exact steady.copyTarget h target

theorem renameAlias (steady : Steady s after) (r : Renaming) (handles : List Handle) :
    Steady s (handles.foldl (TokenStream.renameAlias r) after) := by
  induction handles generalizing after with
  | nil => exact steady
  | cons h rest ih =>
    apply ih
    unfold TokenStream.renameAlias
    cases (after.get? h).bind (·.literal.aliasTarget?) with
    | none => exact steady
    | some target =>
      cases renamed : r.get? target with
      | none => simpa [renamed] using steady
      | some new => simpa [renamed, setLiteral] using steady.modify h _

theorem adoptNewlines (steady : Steady s after) (target : TokenStream) : Steady s (after.adoptNewlines target) := by
  apply steady.trans
  unfold TokenStream.adoptNewlines
  cases target.firstNewline? with
  | none => exact .refl after
  | some text =>
    unfold Steady
    rw [chains_eq, chains_eq]
    exact .cons (after.chain.turned_mapItems _) (List.forall₂_same.mpr fun c _ => .refl c)

end Steady

private theorem chainsAmong_filter (gone : Nat) (nested : List (Nat × Option TokenStream)) :
    chainsAmong (nested.filter (·.1 != gone)) ⊆ chainsAmong nested := by
  induction nested with
  | nil => simp [chainsAmong]
  | cons place rest ih =>
    obtain ⟨index, held⟩ := place
    intro c member
    by_cases same : index = gone
    · have later : c ∈ chainsAmong rest := ih (by simpa [same] using member)
      cases held <;> simp [chainsAmong, later]
    · cases held with
      | none => exact ih (by simpa [same, chainsAmong] using member)
      | some s =>
        have either : c ∈ s.chains ∨ c ∈ chainsAmong (rest.filter (·.1 != gone)) := by
          simpa [same, chainsAmong] using member
        rcases either with here | later
        · simp [chainsAmong, here]
        · simp [chainsAmong, ih later]

private theorem chainsAmong_lookup {index : Nat} {sub : Option TokenStream} {nested : List (Nat × Option TokenStream)}
    (found : nested.lookup index = some sub) : chainsAmong [(index, sub)] ⊆ chainsAmong nested := by
  obtain ⟨front, back, rfl, _⟩ := List.lookup_eq_some_iff.mp found
  intro c member
  have split : front ++ (index, sub) :: back = front ++ ([(index, sub)] ++ back) := rfl
  rw [split, chainsAmong_append, chainsAmong_append]
  simp [member]

private theorem take_of_contains {s : TokenStream} {h : Handle} (held : s.chain.contains h = true) :
    ∃ token, s.take h =
        some (token, s.nested.lookup h.index, ⟨s.chain.vacate h.index, s.nested.filter (·.1 != h.index)⟩) ∧
      s.chain.Turned (s.chain.vacate h.index) [h] := by
  obtain ⟨occupied, named⟩ := (s.chain.contains_iff_handle h).mp held
  obtain ⟨token, stored⟩ := Option.isSome_iff_exists.mp occupied
  obtain ⟨index, found⟩ := Option.isSome_iff_exists.mp held
  have place : index = h.index := congrArg Handle.index (Chain.handle_of_index? found)
  subst place
  refine ⟨token, ?_, Chain.turned_vacate found⟩
  simp [TokenStream.take, Chain.take, found, stored]

private theorem turned_dropAll {s : TokenStream} {handles : List Handle} (nodup : handles.Nodup)
    (held : ∀ h ∈ handles, s.chain.contains h = true) :
    s.chain.Turned (s.dropAll handles).chain handles ∧
      chainsAmong (s.dropAll handles).nested ⊆ chainsAmong s.nested := by
  induction handles generalizing s with
  | nil => exact ⟨.refl _, List.Subset.refl _⟩
  | cons h rest ih =>
    obtain ⟨absent, distinct⟩ := List.nodup_cons.mp nodup
    obtain ⟨token, taken, turned⟩ := take_of_contains (held h (by simp))
    have onward : ∀ other ∈ rest, (s.chain.vacate h.index).contains other = true := by
      intro other member
      refine turned.contains (held other (by simp [member])) ?_
      rintro listed
      exact absent (List.mem_singleton.mp listed ▸ member)
    have step : s.dropAll (h :: rest) =
        dropAll ⟨s.chain.vacate h.index, s.nested.filter (·.1 != h.index)⟩ rest := by
      simp [TokenStream.dropAll, taken]
    obtain ⟨later, nested⟩ := ih (s := ⟨s.chain.vacate h.index, s.nested.filter (·.1 != h.index)⟩) distinct onward
    rw [step]
    refine ⟨turned.trans later fun index listed => ?_, List.Subset.trans nested (chainsAmong_filter _ _)⟩
    exact held _ (by simp [listed])

/-- The chains that tokens own go where the tokens go. -/
theorem turned_moveOne {position : Option Nat} {handles : List Handle} (nodup : handles.Nodup)
    {target source target' source' : TokenStream} {pairs pairs' : List (Handle × Handle)}
    (held : ∀ h ∈ handles, source.chain.contains h = true)
    (done : handles.foldl (moveOne position) (target, source, pairs) = (target', source', pairs')) :
    target.chain.Turned target'.chain [] ∧ source.chain.Turned source'.chain handles ∧
      chainsAmong target'.nested ++ chainsAmong source'.nested ⊆
        chainsAmong target.nested ++ chainsAmong source.nested := by
  induction handles generalizing target source pairs with
  | nil =>
    obtain ⟨rfl, rfl, rfl⟩ : target = target' ∧ source = source' ∧ pairs = pairs' := by simpa using done
    exact ⟨.refl _, .refl _, List.Subset.refl _⟩
  | cons h rest ih =>
    obtain ⟨absent, distinct⟩ := List.nodup_cons.mp nodup
    obtain ⟨token, taken, turned⟩ := take_of_contains (held h (by simp))
    have onward : ∀ other ∈ rest, (source.chain.vacate h.index).contains other = true := by
      intro other member
      refine turned.contains (held other (by simp [member])) ?_
      rintro listed
      exact absent (List.mem_singleton.mp listed ▸ member)
    simp only [List.foldl_cons, moveOne, taken] at done
    obtain ⟨into, outof, nested⟩ := ih distinct onward done
    refine ⟨(target.chain.turned_insertAt position token).trans_still into, turned.trans outof fun index listed => ?_,
      List.Subset.trans nested ?_⟩
    · exact held _ (by simp [listed])
    · intro c member
      rcases List.mem_append.mp member with inTarget | inSource
      · cases found : source.nested.lookup h.index with
        | none => simp_all
        | some sub =>
          simp only [found, chainsAmong_append, List.mem_append] at inTarget
          rcases inTarget with old | came
          · simp [old]
          · refine List.mem_append_right _ (chainsAmong_lookup found ?_)
            cases sub with
            | none => simp [chainsAmong] at came
            | some s => simpa [chainsAmong] using came
      · exact List.mem_append_right _ (chainsAmong_filter _ _ inSource)

/-- Chains after a change: tokens with the handles `gone` left them, and the handles
`issued` are of tokens that came. -/
structure Turns (old new : List (Chain Token)) (issued gone : List Handle) : Prop where
  each : ∀ d ∈ new, ∃ c ∈ old, c.Turned d gone
  held : ∀ h ∈ gone, ∃ c ∈ old, c.contains h = true
  fresh : ∀ h ∈ issued, ∃ c ∈ old, c.id = h.chain ∧ c.contains h = false
  given : ∀ h ∈ issued, ∃ d ∈ new, d.contains h = true

namespace Turns

variable {old middle new : List (Chain Token)} {issued gone : List Handle}

theorem of_forall₂ (all : List.Forall₂ (fun c d : Chain Token => c.Turned d []) old new) : Turns old new [] [] := by
  refine ⟨?_, by simp, by simp, by simp⟩
  induction all with
  | nil => simp
  | cons one _ ih =>
    intro d member
    rcases List.mem_cons.mp member with rfl | later
    · exact ⟨_, by simp, one⟩
    · obtain ⟨c, inside, turned⟩ := ih d later
      exact ⟨c, by simp [inside], turned⟩

theorem trans {later : List Handle} (distinct : (old.map (·.id)).Nodup) (first : Turns old middle [] gone)
    (second : Turns middle new [] later) (present : ∀ h ∈ later, ∃ c ∈ old, c.contains h = true) :
    Turns old new [] (gone ++ later) := by
  refine ⟨fun e member => ?_, fun h member => ?_, by simp, by simp⟩
  · obtain ⟨d, inside, after⟩ := second.each e member
    obtain ⟨c, origin, before⟩ := first.each d inside
    refine ⟨c, origin, before.trans after fun index listed => ?_⟩
    obtain ⟨holder, among, held⟩ := present _ listed
    have same : holder.id = c.id := (Chain.id_of_contains held).symm.trans before.id
    rwa [← List.inj_on_of_nodup_map distinct among origin same]
  · rcases List.mem_append.mp member with early | late
    · exact first.held h early
    · exact present h late

/-- What is around the changed chains keeps its place. -/
theorem frame {outer outer' : List (Chain Token)} (turns : Turns old new issued gone) (inside : old ⊆ outer)
    (inside' : new ⊆ outer')
    (cover : ∀ d ∈ outer', d ∈ new ∨ d ∈ outer ∧ ∀ c ∈ old, c.id ≠ d.id) : Turns outer outer' issued gone := by
  refine ⟨fun d member => ?_, fun h member => ?_, fun h member => ?_, fun h member => ?_⟩
  · rcases cover d member with changed | ⟨same, apart⟩
    · obtain ⟨c, origin, turned⟩ := turns.each d changed
      exact ⟨c, inside origin, turned⟩
    · refine ⟨d, same, (Chain.Turned.refl d).widen fun h left equal => ?_⟩
      obtain ⟨c, origin, held⟩ := turns.held h left
      exact apart c origin ((Chain.id_of_contains held).symm.trans equal)
  · obtain ⟨c, origin, held⟩ := turns.held h member
    exact ⟨c, inside origin, held⟩
  · obtain ⟨c, origin, new⟩ := turns.fresh h member
    exact ⟨c, inside origin, new⟩
  · obtain ⟨d, behind, held⟩ := turns.given h member
    exact ⟨d, inside' behind, held⟩

theorem issue (turns : Turns old new [] gone)
    (fresh : ∀ h ∈ issued, ∃ c ∈ old, c.id = h.chain ∧ c.contains h = false)
    (given : ∀ h ∈ issued, ∃ d ∈ new, d.contains h = true) : Turns old new issued gone :=
  ⟨turns.each, turns.held, fresh, given⟩

/-- Changes that let nothing go may come before. -/
theorem after (distinct : (old.map (·.id)).Nodup) (still : Turns old middle [] [])
    (turns : Turns middle new issued gone)
    (present : ∀ h ∈ gone, ∃ c ∈ old, c.contains h = true) : Turns old new issued gone := by
  have bare : Turns middle new [] gone := ⟨turns.each, turns.held, by simp, by simp⟩
  have whole : Turns old new [] gone := by simpa using still.trans distinct bare present
  refine whole.issue (fun h member => ?_) turns.given
  obtain ⟨d, inside, named, absent⟩ := turns.fresh h member
  obtain ⟨c, origin, turned⟩ := still.each d inside
  refine ⟨c, origin, turned.id.symm.trans named, ?_⟩
  rw [Bool.eq_false_iff]
  intro held
  rw [turned.contains held (by simp)] at absent
  cases absent

end Turns

theorem Steady.turns {s after : TokenStream} (steady : Steady s after) : Turns s.chains after.chains [] [] :=
  .of_forall₂ steady

/-- What a stream may become: sound, with no new identity, and with its slots counted on. -/
structure Changed (s after : TokenStream) (issued gone : List Handle) : Prop where
  sound : after.Sound
  id : after.chain.id = s.chain.id
  counted : ∀ id, after.ids.count id ≤ s.ids.count id
  turns : Turns s.chains after.chains issued gone

private theorem distinct_chains {s : TokenStream} (distinct : s.ids.Nodup) : (s.chains.map (·.id)).Nodup := by
  rwa [← ids_eq_chains]

theorem Turns.within {root owner after : TokenStream} {id : ChainId} {issued gone : List Handle}
    (distinct : root.ids.Nodup) (held : root.owner? id = some owner)
    (turns : Turns owner.chains after.chains issued gone) :
    Turns root.chains (root.modifyOwner id fun _ => after).chains issued gone := by
  obtain ⟨front, back, split, replaced⟩ := chains_modifyOwner held
  have nodup := distinct_chains distinct
  rw [split, List.map_append, List.map_append] at nodup
  obtain ⟨_, rest, early⟩ := List.nodup_append'.mp nodup
  obtain ⟨_, _, late⟩ := List.nodup_append'.mp rest
  rw [split, replaced]
  refine turns.frame (fun c member => by simp [member]) (fun d member => by simp [member]) fun d member => ?_
  rcases List.mem_append.mp member with ahead | others
  · refine .inr ⟨by simp [ahead], fun c inside same => ?_⟩
    exact early (List.mem_map_of_mem ahead) (by simp [← same, List.mem_map_of_mem inside])
  · rcases List.mem_append.mp others with here | behind
    · exact .inl here
    · refine .inr ⟨by simp [behind], fun c inside same => ?_⟩
      exact late (List.mem_map_of_mem inside) (same ▸ List.mem_map_of_mem behind)

/-- A change of a nested stream is a change of the one around it. -/
theorem Changed.within {root owner after : TokenStream} {id : ChainId} {issued gone : List Handle} (sound : root.Sound)
    (distinct : root.ids.Nodup) (held : root.owner? id = some owner) (changed : Changed owner after issued gone) :
    Changed root (root.modifyOwner id fun _ => after) issued gone := by
  refine ⟨sound.modifyOwner fun _ _ => changed.sound, id_modifyOwner fun other found => ?_, fun other => ?_,
    changed.turns.within distinct held⟩
  · obtain rfl : other = owner := Option.some.inj (found.symm.trans held)
    exact changed.id
  · have total := count_modifyOwner held (fun _ => after) other
    have bound := changed.counted other
    omega

private theorem turns_of_top {s after : TokenStream} {gone : List Handle} (distinct : s.ids.Nodup)
    (turned : s.chain.Turned after.chain gone) (nested : chainsAmong after.nested ⊆ chainsAmong s.nested)
    (held : ∀ h ∈ gone, s.chain.contains h = true) : Turns s.chains after.chains [] gone := by
  have nodup := distinct_chains distinct
  rw [chains_eq, List.map_cons] at nodup
  have top : Turns [s.chain] [after.chain] [] gone :=
    ⟨fun d member => ⟨s.chain, by simp, List.mem_singleton.mp member ▸ turned⟩,
      fun h member => ⟨s.chain, by simp, held h member⟩, by simp, by simp⟩
  rw [chains_eq s, chains_eq after]
  refine top.frame (by simp) (by simp) fun d member => ?_
  rcases List.mem_cons.mp member with rfl | later
  · exact .inl (by simp)
  · refine .inr ⟨by simp [nested later], fun c inside same => ?_⟩
    obtain rfl := List.mem_singleton.mp inside
    exact (List.nodup_cons.mp nodup).1 (same ▸ List.mem_map_of_mem (nested later))

private theorem fresh_of_view {s : TokenStream} (sound : s.Sound) {h : Handle} (own : h.chain = s.chain.id)
    (absent : h ∉ s.view.map (·.1)) : ∃ c ∈ s.chains, c.id = h.chain ∧ c.contains h = false := by
  refine ⟨s.chain, by simp [chains_eq], own.symm, ?_⟩
  rw [Bool.eq_false_iff]
  intro held
  apply absent
  have member := (sound.chain.contains_iff h).mp held
  rw [view, List.map_map]
  exact member

theorem contains_of_view {s : TokenStream} (sound : s.Sound) {h : Handle} (member : h ∈ s.view.map (·.1)) :
    ∃ d ∈ s.chains, d.contains h = true := by
  refine ⟨s.chain, by simp [chains_eq], (sound.chain.contains_iff h).mpr ?_⟩
  rw [view, List.map_map] at member
  exact member

theorem Sound.push_changed {s : TokenStream} (sound : s.Sound) (token : Token) :
    Changed s (s.push token).2 [(s.push token).1] [] := by
  obtain ⟨after, view, id, ids⟩ := sound.push token
  have nodup := after.handles_nodup
  rw [view, List.map_append] at nodup
  refine ⟨after, id, fun other => Nat.le_of_eq (by rw [ids]), Turns.issue ?_ ?_ ?_⟩
  · refine .of_forall₂ ?_
    rw [chains_eq, chains_eq]
    exact .cons (s.chain.turned_insertAt none token) (List.forall₂_same.mpr fun c _ => .refl c)
  · intro h member
    obtain rfl := List.mem_singleton.mp member
    apply fresh_of_view sound
    · have member : ((s.push token).1, token, none) ∈ (s.push token).2.view := by simp [view]
      rw [← id]
      exact after.chain_of_view member
    · intro early
      exact (List.nodup_append'.mp nodup).2.2 early (by simp)
  · intro h member
    obtain rfl := List.mem_singleton.mp member
    exact contains_of_view after (by simp [view])

private theorem Sound.insertInto_changed {s after : TokenStream} (sound : s.Sound) {position new : Handle}
    {place : Chain Token → Nat → Option Nat} {token : Token} (own : position.chain = s.chain.id)
    (done : s.insertInto position place token = .ok (new, after)) (sound' : after.Sound) (ids : after.ids = s.ids)
    {front back : List Piece} (split : s.view = front ++ back)
    (view : after.view = front ++ (new, token, none) :: back) : Changed s after [new] [] := by
  unfold insertInto checkedOwner at done
  rw [own, owner?_self] at done
  cases checked : s.checkedIndex position with
  | error e => simp [checked, bind, Except.bind] at done
  | ok index =>
    rcases placed : s.chain.insertAt (place s.chain index) token with ⟨h, chain⟩
    obtain ⟨rfl, rfl⟩ : h = new ∧ ({ s with chain } : TokenStream) = after := by
      simpa [checked, placed, bind, Except.bind, pure, Except.pure] using done
    have turned := s.chain.turned_insertAt (place s.chain index) token
    rw [placed] at turned
    refine ⟨sound', turned.id, fun other => Nat.le_of_eq (by rw [ids]), Turns.issue ?_ ?_ ?_⟩
    · refine .of_forall₂ ?_
      rw [chains_eq, chains_eq]
      exact .cons turned (List.forall₂_same.mpr fun c _ => .refl c)
    · intro other member
      obtain rfl := List.mem_singleton.mp member
      have nodup := sound'.handles_nodup
      have inside : (other, token, none) ∈ (⟨chain, s.nested⟩ : TokenStream).view := by simp [view]
      apply fresh_of_view sound ((sound'.chain_of_view inside).trans turned.id)
      rw [view, List.map_append, List.map_cons, List.nodup_middle, ← List.map_append, ← split] at nodup
      exact (List.nodup_cons.mp nodup).1
    · intro other member
      obtain rfl := List.mem_singleton.mp member
      exact contains_of_view sound' (by simp [view])

theorem Sound.insertBefore_changed {s after : TokenStream} (sound : s.Sound) (distinct : s.ids.Nodup)
    {before new : Handle} {token : Token} (done : s.insertBefore before token = .ok (new, after)) :
    Changed s after [new] [] := by
  obtain ⟨owner, owner', held, inserted, rfl⟩ := insertInto_owner done
  have own := (id_of_owner? held).symm
  obtain ⟨sound', ids, _, front, piece, back, split, _, view⟩ := (sound.owner? held).insertBefore own inserted
  exact ((sound.owner? held).insertInto_changed own inserted sound' ids split view).within sound distinct held

theorem Sound.insertAfter_changed {s after : TokenStream} (sound : s.Sound) (distinct : s.ids.Nodup)
    {behind new : Handle} {token : Token} (done : s.insertAfter behind token = .ok (new, after)) :
    Changed s after [new] [] := by
  obtain ⟨owner, owner', held, inserted, rfl⟩ := insertInto_owner done
  have own := (id_of_owner? held).symm
  obtain ⟨sound', ids, _, front, piece, back, split, _, view⟩ := (sound.owner? held).insertAfter own inserted
  have split' : owner.view = (front ++ [piece]) ++ back := by simp [split]
  exact ((sound.owner? held).insertInto_changed own inserted sound' ids split' (by simpa using view)).within sound
    distinct held

/-- Handles of a range are held, and none of them twice. -/
theorem Sound.range_held {s : TokenStream} (sound : s.Sound) {first last : Handle} {handles : List Handle}
    (own : first.chain = s.chain.id) (found : s.rangeHandles first last = .ok handles) :
    handles.Nodup ∧ ∀ h ∈ handles, s.chain.contains h = true := by
  obtain ⟨front, middle, back, split, rfl, _⟩ := sound.rangeHandles own found
  have nodup := sound.handles_nodup
  rw [split, List.map_append, List.map_append] at nodup
  refine ⟨(List.nodup_append'.mp (List.nodup_append'.mp nodup).2.1).1, fun h member => ?_⟩
  rw [sound.chain.contains_iff]
  have inside : h ∈ s.view.map (·.1) := by
    rw [split, List.map_append, List.map_append]
    simp only [List.mem_append]
    exact .inr (.inl member)
  rw [view, List.map_map] at inside
  exact inside

theorem Sound.erase_changed {s after : TokenStream} (sound : s.Sound) (distinct : s.ids.Nodup) {first last : Handle}
    (done : s.erase first last = .ok after) :
    ∃ owner handles, s.owner? first.chain = some owner ∧ owner.rangeHandles first last = .ok handles ∧
      Changed s after [] handles := by
  obtain ⟨after_sound, counted, _⟩ := sound.erase_deep distinct done
  obtain ⟨owner, settled, kept, handles, held, found, rfl, calm, held', alike, rfl⟩ := sound.erase_owner distinct done
  obtain ⟨nodup, present⟩ := (sound.owner? held).range_held (id_of_owner? held).symm found
  have steady := (Steady.refl s).detachAliases handles
  have distinct' : (s.detachAliases handles).ids.Nodup := calm.alike.ids_eq ▸ distinct
  -- The tokens are still there when the aliases of them have become copies.
  have still : ∀ h ∈ handles, kept.chain.contains h = true := by
    intro h member
    have same : kept.chain.entries.map (·.1) = owner.chain.entries.map (·.1) := by
      have views := handles_of_stays alike.stays
      rw [view, view, List.map_map, List.map_map] at views
      exact views
    rw [(calm.sound.owner? held').chain.contains_iff, same, ← (sound.owner? held).chain.contains_iff]
    exact present h member
  obtain ⟨turned, nested⟩ := turned_dropAll nodup still
  have dropped := (turns_of_top (distinct_owner distinct' held') turned nested still).within distinct' held'
  have holder : owner.chain ∈ s.chains := chains_of_owner? held (by simp [chains_eq])
  refine ⟨owner, handles, held, found, after_sound, ?_, counted, ?_⟩
  · refine (id_modifyOwner fun other same => ?_).trans calm.alike.id_eq
    obtain rfl : other = kept := Option.some.inj (same.symm.trans held')
    exact turned.id
  · simpa using steady.turns.trans (distinct_chains distinct) dropped fun h member =>
      ⟨owner.chain, holder, present h member⟩

end YaraRules.TokenStream
