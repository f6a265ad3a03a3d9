import YaraRules.Proofs.StreamGenerations

/-! Slots of two streams that hand tokens to each other. The tokens that go leave their
slots, those that come find vacant ones, and the streams that they own go along
unchanged. A range of a nested stream cannot be moved: such a move finds the range
but takes nothing out. -/

namespace YaraRules.TokenStream

/-- What two streams may become when one hands tokens to the other. -/
structure Transferred (t s t' s' : TokenStream) (issued gone : List Handle) : Prop where
  sound : t'.Sound
  sound' : s'.Sound
  id : t'.chain.id = t.chain.id
  id' : s'.chain.id = s.chain.id
  counted : ∀ id, t'.ids.count id + s'.ids.count id ≤ t.ids.count id + s.ids.count id
  turns : Turns (t.chains ++ s.chains) (t'.chains ++ s'.chains) issued gone

private theorem distinct_pairs {t s : TokenStream} (distinct : (t.ids ++ s.ids).Nodup) :
    ((t.chains ++ s.chains).map (·.id)).Nodup := by
  rwa [List.map_append, ← ids_eq_chains, ← ids_eq_chains]

/-- Streams nested in different ones are different. -/
theorem distinct_owners {root root' t s : TokenStream} {target source : ChainId}
    (distinct : (root.ids ++ root'.ids).Nodup) (held : root.owner? target = some t)
    (held' : root'.owner? source = some s) : (t.ids ++ s.ids).Nodup := by
  obtain ⟨front, back, split, _⟩ := chains_modifyOwner held
  obtain ⟨front', back', split', _⟩ := chains_modifyOwner held'
  refine List.nodup_iff_count_le_one.mpr fun id => ?_
  have once := List.nodup_iff_count_le_one.mp distinct id
  simp only [ids_eq_chains, split, split', List.map_append, List.count_append] at once ⊢
  omega

theorem Transferred.within {root root' t s t' s' : TokenStream} {target source : ChainId} {issued gone : List Handle}
    (sound : root.Sound) (sound' : root'.Sound) (distinct : (root.ids ++ root'.ids).Nodup)
    (held : root.owner? target = some t) (held' : root'.owner? source = some s)
    (transferred : Transferred t s t' s' issued gone) : Transferred root root' (root.modifyOwner target fun _ => t')
    (root'.modifyOwner source fun _ => s') issued gone := by
  refine ⟨sound.modifyOwner fun _ _ => transferred.sound, sound'.modifyOwner fun _ _ => transferred.sound',
    id_modifyOwner fun other found => ?_, id_modifyOwner fun other found => ?_, fun id => ?_, ?_⟩
  · obtain rfl : other = t := Option.some.inj (found.symm.trans held)
    exact transferred.id
  · obtain rfl : other = s := Option.some.inj (found.symm.trans held')
    exact transferred.id'
  · have one := count_modifyOwner held (fun _ => t') id
    have other := count_modifyOwner held' (fun _ => s') id
    have bound := transferred.counted id
    omega
  · obtain ⟨front, back, split, replaced⟩ := chains_modifyOwner held
    obtain ⟨front', back', split', replaced'⟩ := chains_modifyOwner held'
    -- No identity around the two owners is one of theirs.
    have once : ∀ id, ((front ++ back ++ (front' ++ back')).map (·.id)).count id +
        ((t.chains ++ s.chains).map (·.id)).count id ≤ 1 := by
      intro id
      have single := List.nodup_iff_count_le_one.mp (distinct_pairs distinct) id
      simp only [split, split', List.map_append, List.count_append] at single ⊢
      omega
    refine transferred.turns.frame (fun c member => ?_) (fun d member => ?_) fun d member => ?_
    · rw [split, split']
      simp only [List.mem_append] at member ⊢
      tauto
    · rw [replaced, replaced']
      simp only [List.mem_append] at member ⊢
      tauto
    · have parts : d ∈ t'.chains ++ s'.chains ∨ d ∈ front ++ back ++ (front' ++ back') := by
        rw [replaced, replaced'] at member
        simp only [List.mem_append] at member ⊢
        tauto
      refine parts.imp_right fun around => ⟨?_, fun c inside same => ?_⟩
      · rw [split, split']
        simp only [List.mem_append] at around ⊢
        tauto
      · have one := List.count_pos_iff.mpr (List.mem_map_of_mem (f := fun c : Chain Token => c.id) around)
        have other := List.count_pos_iff.mpr (List.mem_map_of_mem (f := fun c : Chain Token => c.id) inside)
        have bound := once d.id
        rw [same] at other
        omega

theorem Steady.beside {s s' : TokenStream} (steady : Steady s s') (t : TokenStream) :
    Turns (t.chains ++ s.chains) (t.chains ++ s'.chains) [] [] :=
  .of_forall₂ (List.rel_append (Steady.refl t) steady)

theorem Steady.before {t t' : TokenStream} (steady : Steady t t') (s : TokenStream) :
    Turns (t.chains ++ s.chains) (t'.chains ++ s.chains) [] [] :=
  .of_forall₂ (List.rel_append steady (Steady.refl s))

private theorem turns_of_tops {t s t' s' : TokenStream} {gone : List Handle} (distinct : (t.ids ++ s.ids).Nodup)
    (into : t.chain.Turned t'.chain []) (outof : s.chain.Turned s'.chain gone)
    (nested : chainsAmong t'.nested ++ chainsAmong s'.nested ⊆ chainsAmong t.nested ++ chainsAmong s.nested)
    (held : ∀ h ∈ gone, s.chain.contains h = true) :
    Turns (t.chains ++ s.chains) (t'.chains ++ s'.chains) [] gone := by
  have order : (t.chains ++ s.chains).Perm (t.chain :: s.chain :: (chainsAmong t.nested ++ chainsAmong s.nested)) := by
    rw [chains_eq t, chains_eq s, List.cons_append]
    exact List.Perm.cons _ List.perm_middle
  have nodup := (order.map (·.id)).nodup_iff.mp (distinct_pairs distinct)
  rw [List.map_cons, List.map_cons] at nodup
  obtain ⟨outside, rest⟩ := List.nodup_cons.mp nodup
  have tops : s.chain.id ≠ t.chain.id := fun same => outside (same ▸ List.mem_cons_self)
  have top : Turns [t.chain, s.chain] [t'.chain, s'.chain] [] gone := by
    refine ⟨fun d member => ?_, fun h member => ⟨s.chain, by simp, held h member⟩, by simp, by simp⟩
    rcases List.mem_cons.mp member with rfl | last
    · refine ⟨t.chain, by simp, into.widen fun h left same => ?_⟩
      exact tops ((Chain.id_of_contains (held h left)).symm.trans same)
    · exact ⟨s.chain, by simp, List.mem_singleton.mp last ▸ outof⟩
  have around : ∀ d ∈ chainsAmong t'.nested ++ chainsAmong s'.nested,
      d ∈ t.chains ++ s.chains ∧ ∀ c ∈ [t.chain, s.chain], c.id ≠ d.id := by
    intro d member
    have named := List.mem_map_of_mem (f := fun c : Chain Token => c.id) (nested member)
    refine ⟨order.mem_iff.mpr (.tail _ (.tail _ (nested member))), fun c inside same => ?_⟩
    rcases List.mem_cons.mp inside with rfl | last
    · exact outside (.tail _ (same ▸ named))
    · obtain rfl := List.mem_singleton.mp last
      exact (List.nodup_cons.mp rest).1 (same ▸ named)
  refine top.frame (fun c member => ?_) (fun d member => ?_) fun d member => ?_
  · rcases List.mem_cons.mp member with rfl | last
    · exact order.mem_iff.mpr List.mem_cons_self
    · obtain rfl := List.mem_singleton.mp last
      exact order.mem_iff.mpr (.tail _ List.mem_cons_self)
  · rw [chains_eq t', chains_eq s']
    simp only [List.mem_cons, List.mem_append, List.not_mem_nil, or_false] at member ⊢
    tauto
  · rw [chains_eq t', chains_eq s'] at member
    simp only [List.cons_append, List.mem_cons, List.mem_append] at member
    rcases member with rfl | inTarget | rfl | inSource
    · exact .inl (by simp)
    · exact .inr (around d (by simp [inTarget]))
    · exact .inl (by simp)
    · exact .inr (around d (by simp [inSource]))

private theorem fresh_beside {t t' : TokenStream} (sound : t.Sound) (sound' : t'.Sound)
    (id : t'.chain.id = t.chain.id) {ahead moved behind : List Piece} (into : t.view = ahead ++ behind)
    (view : t'.view = ahead ++ (moved ++ behind)) (s : TokenStream) :
    ∀ h ∈ moved.map (·.1), ∃ c ∈ t.chains ++ s.chains, c.id = h.chain ∧ c.contains h = false := by
  intro h member
  obtain ⟨piece, inside, rfl⟩ := List.mem_map.mp member
  refine ⟨t.chain, by simp [chains_eq], ?_, ?_⟩
  · rw [← id]
    exact (sound'.chain_of_view (show piece ∈ t'.view by simp [view, inside])).symm
  · rw [Bool.eq_false_iff]
    intro held
    have old : piece.1 ∈ t.view.map (·.1) := by
      rw [TokenStream.view, List.map_map]
      exact (sound.chain.contains_iff _).mp held
    have nodup := sound'.handles_nodup
    rw [view, List.map_append, List.map_append] at nodup
    obtain ⟨_, later, early⟩ := List.nodup_append'.mp nodup
    rw [into, List.map_append] at old
    rcases List.mem_append.mp old with before | after
    · exact early before (List.mem_append_left _ member)
    · exact (List.nodup_append'.mp later).2.2 member after

theorem chain_of_rangeHandles {s : TokenStream} {first last : Handle} {handles : List Handle}
    (found : s.rangeHandles first last = .ok handles) {h : Handle} (member : h ∈ handles) : h.chain = first.chain := by
  unfold rangeHandles at found
  cases walked : s.range first last with
  | error e => simp [walked, bind, Except.bind] at found
  | ok entries =>
    simp only [walked, bind, Except.bind] at found
    split_ifs at found
    cases found
    obtain ⟨entry, listed, rfl⟩ := List.mem_map.mp member
    rw [range_eq] at walked
    cases owned : s.chainOf? first.chain with
    | none => simp [owned] at walked
    | some chain =>
      have same : chain.id = first.chain := (mem_chains_of_chainOf? owned).2
      cases start : chain.index? first with
      | none => simp [owned, start] at walked
      | some i =>
        cases stop : chain.index? last with
        | none => simp [owned, start, stop] at walked
        | some j =>
          obtain rfl : chain.entriesBetween i j = entries := by simpa [owned, start, stop] using walked
          exact (chain.get?_of_walk listed).1.trans same

/-- The range may be in a stream that is nested in the source; then nothing moves. -/
theorem moveRange_inner {target source target' source' : TokenStream} {before : Option Handle}
    {first last : Handle} {names : Renaming} (sound : source.Sound) (distinct : source.ids.Nodup)
    (other : first.chain ≠ source.chain.id)
    (done : target.moveRange before source first last = (.ok (names, target'), source')) :
    target' = target ∧ names.pairs = [] ∧ Settled source source' ∧ Steady source source' := by
  obtain ⟨position, handles, received, _, found, ran, rfl⟩ := moveRange_done done
  have settled := sound.settled_calmed distinct handles
  have steady : Steady source (source.calmed handles) :=
    ((Steady.refl source).settleAlias handles handles).detachAliases handles
  generalize source.calmed handles = calm at settled steady ran
  have id : calm.chain.id = source.chain.id := steady.top.id
  have away : ∀ h ∈ handles, calm.take h = none := by
    intro h member
    have inside := chain_of_rangeHandles found member
    have missing : calm.chain.index? h = none := by
      have apart : ¬h.chain = calm.chain.id := by rw [inside, id]; exact other
      simp [Chain.index?, apart]
    simp [take, missing]
  have idle : ∀ pairs, handles.foldl (moveOne position) (target, calm, pairs) = (target, calm, pairs) := by
    intro pairs
    clear found settled steady ran
    induction handles with
    | nil => rfl
    | cons h rest ih =>
      rw [List.foldl_cons, moveOne]
      simp only [away h (by simp)]
      exact ih fun other member => away other (by simp [member])
  rw [idle []] at ran
  obtain ⟨rfl, rfl, none⟩ : target = received ∧ calm = source' ∧ [] = names.pairs := by simpa using ran
  rw [← none]
  exact ⟨rfl, rfl, settled, steady⟩

private theorem moveRange_turns {target source target' source' : TokenStream} {before : Option Handle}
    {first last : Handle} {names : Renaming} (sound : source.Sound) (distinct : (target.ids ++ source.ids).Nodup)
    (own : first.chain = source.chain.id)
    (done : target.moveRange before source first last = (.ok (names, target'), source')) :
    ∃ handles, source.rangeHandles first last = .ok handles ∧
      Turns (target.chains ++ source.chains) (target'.chains ++ source'.chains) [] handles := by
  obtain ⟨position, handles, received, _, found, run, rfl⟩ := moveRange_done done
  obtain ⟨nodup, held⟩ := sound.range_held own found
  have settled := sound.settled_calmed (List.nodup_append'.mp distinct).2.1 handles
  have steady : Steady source (source.calmed handles) :=
    ((Steady.refl source).settleAlias handles handles).detachAliases handles
  generalize source.calmed handles = calm at settled steady run
  have still : ∀ h ∈ handles, calm.chain.contains h = true := fun h member =>
    steady.top.contains (held h member) (by simp)
  have distinct' : (target.ids ++ calm.ids).Nodup := settled.alike.ids_eq ▸ distinct
  obtain ⟨into, outof, nested⟩ := turned_moveOne nodup still run
  have renamed := ((Steady.refl received).renameAlias names (names.pairs.map (·.2))).before source'
  have moved := turns_of_tops distinct' into outof nested still
  have present : ∀ h ∈ handles, ∃ c ∈ target.chains ++ source.chains, c.contains h = true := fun h member =>
    ⟨source.chain, by simp [chains_eq], held h member⟩
  refine ⟨handles, found, ?_⟩
  have early := (steady.beside target).trans (distinct_pairs distinct) moved present
  simpa using early.trans (distinct_pairs distinct) renamed (by simp)

theorem Sound.moveRange_transferred {target source target' source' : TokenStream} (sound : target.Sound)
    (sound' : source.Sound) (distinct : (target.ids ++ source.ids).Nodup) {before : Option Handle}
    {first last : Handle} {names : Renaming}
    (done : target.moveRange before source first last = (.ok (names, target'), source')) :
    Transferred target source target' source' (names.pairs.map (·.2)) (names.pairs.map (·.1)) := by
  have alone := (List.nodup_append'.mp distinct).2.1
  by_cases own : first.chain = source.chain.id
  · obtain ⟨after, after', id, id', total, ahead, behind, front, middle, back, moved, into, _, split, spans, view,
      carried, pairs, _⟩ := sound.moveRange sound' alone own done
    obtain ⟨handles, found, turns⟩ := moveRange_turns sound' distinct own done
    have lengths : middle.length = moved.length := carried.length_eq
    have old : names.pairs.map (·.1) = handles := by
      rw [pairs, renamed, List.map_fst_zip (by simp [lengths])]
      exact Except.ok.inj ((sound'.rangeHandles_ok split spans).symm.trans found)
    have new : names.pairs.map (·.2) = moved.map (·.1) := by
      rw [pairs, renamed, List.map_snd_zip (by simp [lengths])]
    rw [old, new]
    refine ⟨after, after', id, id', fun other => Nat.le_of_eq (total other),
      turns.issue (fresh_beside sound after id into view source) fun h member => ?_⟩
    obtain ⟨d, inside, held⟩ := contains_of_view after (h := h) (by
      rw [view, List.map_append, List.map_append]
      simp only [List.mem_append]
      exact .inr (.inl member))
    exact ⟨d, List.mem_append_left _ inside, held⟩
  · obtain ⟨rfl, none, settled, steady⟩ := moveRange_inner sound' alone own done
    rw [none]
    exact ⟨sound, settled.sound, rfl, steady.top.id, fun other => Nat.le_of_eq (by rw [settled.alike.ids_eq]),
      steady.beside target'⟩

private theorem present_beside {s : TokenStream} (sound : s.Sound) (t : TokenStream) :
    ∀ h ∈ s.view.map (·.1), ∃ c ∈ t.chains ++ s.chains, c.contains h = true := by
  intro h member
  refine ⟨s.chain, by simp [chains_eq], (sound.chain.contains_iff h).mpr ?_⟩
  rw [view, List.map_map] at member
  exact member

theorem Sound.moveAll_transferred {target source target' source' : TokenStream} (sound : target.Sound)
    (sound' : source.Sound) (distinct : (target.ids ++ source.ids).Nodup) {before : Option Handle} {names : Renaming}
    (done : target.moveAll before source = (.ok (names, target'), source')) :
    Transferred target source target' source' (names.pairs.map (·.2)) (names.pairs.map (·.1)) := by
  obtain ⟨_, _, _, _, _, moved, pairs, carried, _⟩ := sound.moveAll sound' (List.nodup_append'.mp distinct).2.1 done
  obtain ⟨adopted, ids, id, _⟩ := sound'.adoptNewlines target
  have steady := ((Steady.refl source).adoptNewlines target).beside target
  have idle : Transferred target source target (source.adoptNewlines target) [] [] :=
    ⟨sound, adopted, rfl, id, fun other => Nat.le_of_eq (by rw [ids]), steady⟩
  unfold TokenStream.moveAll at done
  cases start : (source.adoptNewlines target).first? with
  | none =>
    obtain ⟨⟨rfl, rfl⟩, rfl⟩ : (({} : Renaming) = names ∧ target = target') ∧
        source.adoptNewlines target = source' := by simpa [start] using done
    exact idle
  | some first =>
    cases stop : (source.adoptNewlines target).last? with
    | none =>
      obtain ⟨⟨rfl, rfl⟩, rfl⟩ : (({} : Renaming) = names ∧ target = target') ∧
          source.adoptNewlines target = source' := by simpa [start, stop] using done
      exact idle
    | some last =>
      simp only [start, stop] at done
      have whole := sound.moveRange_transferred adopted (ids ▸ distinct) done
      have old : names.pairs.map (·.1) = source.view.map (·.1) := by
        have lengths : source.view.length = moved.length := by simpa using carried.length_eq
        rw [pairs, renamed, List.map_fst_zip (by simp [lengths])]
      refine ⟨whole.sound, whole.sound', whole.id, whole.id'.trans id, fun other => ids ▸ whole.counted other,
        steady.after (distinct_pairs distinct) whole.turns fun h member => ?_⟩
      exact present_beside sound' target h (old ▸ member)

theorem rangeHandles_owner {s owner : TokenStream} {first last : Handle} (held : s.owner? first.chain = some owner) :
    s.rangeHandles first last = owner.rangeHandles first last := by
  have outer : s.chainOf? first.chain = some owner.chain := by simp [chainOf?, held]
  have inner : owner.chainOf? first.chain = some owner.chain := id_of_owner? held ▸ owner.chainOf?_self
  simp only [rangeHandles, range_eq, outer, inner]

/-- A change of the target while the source stays. -/
private theorem Changed.beside {t t' s : TokenStream} {issued gone : List Handle} (distinct : (t.ids ++ s.ids).Nodup)
    (changed : Changed t t' issued gone) : Turns (t.chains ++ s.chains) (t'.chains ++ s.chains) issued gone := by
  have nodup := distinct_pairs distinct
  rw [List.map_append] at nodup
  refine changed.turns.frame (fun c member => by simp [member]) (fun d member => by simp [member]) fun d member => ?_
  rcases List.mem_append.mp member with here | there
  · exact .inl here
  · refine .inr ⟨by simp [there], fun c inside same => ?_⟩
    exact (List.nodup_append'.mp nodup).2.2 (List.mem_map_of_mem inside) (same ▸ List.mem_map_of_mem there)

/-- Before a token of a nested stream nothing can be put, so there was nothing to move. -/
theorem moveAll_inner {s source joined left : TokenStream} {first : Handle} {names : Renaming}
    (other : first.chain ≠ s.chain.id) (run : s.moveAll (some first) source = (.ok (names, joined), left)) :
    joined = s ∧ left = source.adoptNewlines s ∧ names.pairs = [] := by
  have refused : s.checkedPosition (some first) = .error (.invalidHandle first) := by
    have missing : s.chain.index? first = none := by simp [Chain.index?, other]
    simp [checkedPosition, checkedIndex, missing, bind, Except.bind]
  unfold moveAll at run
  cases start : (source.adoptNewlines s).first? with
  | none =>
    obtain ⟨⟨rfl, rfl⟩, rfl⟩ : (({} : Renaming) = names ∧ s = joined) ∧ source.adoptNewlines s = left := by
      simpa [start] using run
    exact ⟨rfl, rfl, rfl⟩
  | some opening =>
    cases stop : (source.adoptNewlines s).last? with
    | none =>
      obtain ⟨⟨rfl, rfl⟩, rfl⟩ : (({} : Renaming) = names ∧ s = joined) ∧ source.adoptNewlines s = left := by
        simpa [start, stop] using run
      exact ⟨rfl, rfl, rfl⟩
    | some closing => simp [start, stop, moveRange, refused] at run

/-- The range that is replaced is found again when the new tokens stand before it. -/
theorem Sound.rangeHandles_joined {s source joined left : TokenStream} (sound : s.Sound) (sound' : source.Sound)
    (distinct : source.ids.Nodup) {first last : Handle} {handles : List Handle} {names : Renaming}
    (found : s.rangeHandles first last = .ok handles)
    (run : s.moveAll (some first) source = (.ok (names, joined), left)) :
    joined.rangeHandles first last = .ok handles := by
  by_cases own : first.chain = s.chain.id
  · obtain ⟨front, middle, back, split, rfl, spans⟩ := sound.rangeHandles own found
    obtain ⟨sound₁, _, _, _, _, arrived⟩ := sound.moveAll sound' distinct run
    obtain ⟨moved, _, _, _, view⟩ := sound.joined_view split spans arrived
    exact sound₁.rangeHandles_ok view spans
  · obtain ⟨rfl, _⟩ := moveAll_inner own run
    exact found

private theorem Sound.exchange_given {s source s' source' : TokenStream} (sound : s.Sound) (sound' : source.Sound)
    (distinct : (s.ids ++ source.ids).Nodup) {first last : Handle} {names : Renaming}
    (own : first.chain = s.chain.id) (done : s.exchange first last source = (.ok (names, s'), source')) :
    ∀ h ∈ names.pairs.map (·.2), ∃ d ∈ s'.chains ++ source'.chains, d.contains h = true := by
  intro h member
  obtain ⟨after, _, _, _, _, front, middle, back, moved, joined, _, _, pairs, carried, _, _, stays⟩ :=
    sound.exchange sound' distinct own done
  have lengths : source.view.length = moved.length := by simpa using carried.length_eq
  rw [pairs, renamed, List.map_snd_zip (by simp [lengths])] at member
  have listed : h ∈ s'.view.map (·.1) := by
    rw [handles_of_stays stays, List.map_append, List.map_append]
    simp only [List.mem_append]
    exact .inr (.inl member)
  obtain ⟨d, inside, held⟩ := contains_of_view after listed
  exact ⟨d, List.mem_append_left _ inside, held⟩

theorem Sound.exchange_transferred {s source s' source' : TokenStream} (sound : s.Sound) (sound' : source.Sound)
    (distinct : (s.ids ++ source.ids).Nodup) {first last : Handle} {names : Renaming}
    (done : s.exchange first last source = (.ok (names, s'), source')) :
    ∃ handles, s.rangeHandles first last = .ok handles ∧
      Transferred s source s' source' (names.pairs.map (·.2)) (names.pairs.map (·.1) ++ handles) := by
  have given := fun own => sound.exchange_given sound' distinct own done
  unfold TokenStream.exchange at done
  cases found : s.rangeHandles first last with
  | error e => simp [found] at done
  | ok handles =>
    cases run : s.moveAll (some first) source with
    | mk result left =>
    cases result with
    | error e => simp [found, run] at done
    | ok pair =>
      obtain ⟨names', joined⟩ := pair
      have moved := sound.moveAll_transferred sound' distinct run
      have again := sound.rangeHandles_joined sound' (List.nodup_append'.mp distinct).2.1 found run
      simp only [found, run, Prod.mk.injEq] at done
      obtain ⟨done, rfl⟩ := done
      have distinct₁ : (joined.ids ++ left.ids).Nodup := by
        refine List.nodup_iff_count_le_one.mpr fun id => ?_
        have once := List.nodup_iff_count_le_one.mp distinct id
        have bound := moved.counted id
        rw [List.count_append] at once ⊢
        omega
      cases erased : joined.erase first last with
      | error e => simp [erased, bind, Except.bind] at done
      | ok final =>
        obtain ⟨rfl, rfl⟩ : names' = names ∧ final = s' := by
          simpa [erased, bind, Except.bind, pure, Except.pure] using done
        obtain ⟨owner, gone, held, ranged, changed⟩ :=
          moved.sound.erase_changed (List.nodup_append'.mp distinct₁).1 erased
        obtain rfl : handles = gone :=
          Except.ok.inj (again.symm.trans ((rangeHandles_owner held).trans ranged))
        have present : ∀ h ∈ handles, ∃ c ∈ s.chains ++ source.chains, c.contains h = true := by
          intro h member
          cases outer : s.owner? first.chain with
          | none =>
            have missing : s.chainOf? first.chain = none := by simp [chainOf?, outer]
            simp [TokenStream.rangeHandles, range_eq, missing, bind, Except.bind] at found
          | some holder =>
            have kept := (sound.owner? outer).range_held (id_of_owner? outer).symm ((rangeHandles_owner outer) ▸ found)
            exact ⟨holder.chain, List.mem_append_left _ (chains_of_owner? outer (by simp [chains_eq])), kept.2 h member⟩
        have bare : Turns (s.chains ++ source.chains) (joined.chains ++ left.chains) [] (names'.pairs.map (·.1)) :=
          ⟨moved.turns.each, moved.turns.held, by simp, by simp⟩
        refine ⟨handles, rfl, changed.sound, moved.sound', changed.id.trans moved.id, moved.id', fun id => ?_,
          (bare.trans (distinct_pairs distinct) (changed.beside distinct₁) present).issue moved.turns.fresh
            fun h member => ?_⟩
        · have bound := moved.counted id
          have smaller := changed.counted id
          omega
        · by_cases own : first.chain = s.chain.id
          · exact given own h member
          · simp [(moveAll_inner own run).2.2] at member

/-- A failed move or exchange leaves at most other line breaks in the source. -/
structure Untouched (s after : TokenStream) : Prop where
  sound : after.Sound
  ids : after.ids = s.ids
  steady : Steady s after

theorem Sound.untouched {s : TokenStream} (sound : s.Sound) : Untouched s s := ⟨sound, rfl, .refl s⟩

theorem Sound.untouched_newlines {s : TokenStream} (sound : s.Sound) (target : TokenStream) :
    Untouched s (s.adoptNewlines target) := by
  obtain ⟨adopted, ids, _, _⟩ := sound.adoptNewlines target
  exact ⟨adopted, ids, (Steady.refl s).adoptNewlines target⟩

theorem Sound.exchange_leaves {s source source' : TokenStream} (sound : s.Sound) (sound' : source.Sound)
    (distinct : source.ids.Nodup) {first last : Handle} {e : Error}
    (failed : s.exchange first last source = (.error e, source')) : source' = s.unexchanged first last source := by
  by_cases own : first.chain = s.chain.id
  · exact sound.exchange_refused sound' distinct own failed
  · unfold TokenStream.exchange at failed
    unfold TokenStream.unexchanged
    cases found : s.rangeHandles first last with
    | error _ => exact (show source = source' by simpa [found] using congrArg (·.2) failed).symm
    | ok handles =>
      cases run : s.moveAll (some first) source with
      | mk result left =>
      have same : left = source' := by
        cases result with
        | error _ => simpa [found, run] using congrArg (·.2) failed
        | ok pair => simpa [found, run] using congrArg (·.2) failed
      rw [← same]
      cases result with
      | error _ => exact moveAll_refused run
      | ok pair => exact (moveAll_inner own run).2.1

theorem Sound.exchange_untouched {s source source' : TokenStream} (sound : s.Sound) (sound' : source.Sound)
    (distinct : source.ids.Nodup) {first last : Handle} {e : Error}
    (failed : s.exchange first last source = (.error e, source')) : Untouched source source' := by
  rw [sound.exchange_leaves sound' distinct failed]
  unfold TokenStream.unexchanged
  split
  · exact sound'.untouched_newlines s
  · exact sound'.untouched

private theorem chainsAmong_attached {sub : TokenStream} {index : Nat} : ∀ nested : List (Nat × Option TokenStream),
    ∀ d ∈ chainsAmong (nested.map fun (place, old) => if place = index then (place, some sub) else (place, old)),
      d ∈ chainsAmong nested ∨ d ∈ sub.chains := by
  intro nested
  induction nested with
  | nil => simp [chainsAmong]
  | cons first rest ih =>
    obtain ⟨place, old⟩ := first
    intro d member
    by_cases same : place = index
    · rcases List.mem_append.mp (by simpa [same, chainsAmong] using member) with here | later
      · exact .inr here
      · refine (ih d later).imp_left fun inside => ?_
        cases old <;> simp [chainsAmong, inside]
    · cases old with
      | none => simpa [same, chainsAmong] using ih d (by simpa [same, chainsAmong] using member)
      | some stream =>
        rcases List.mem_append.mp (by simpa [same, chainsAmong] using member) with here | later
        · exact .inl (by simp [chainsAmong, here])
        · exact (ih d later).imp_left fun inside => by simp [chainsAmong, inside]

theorem chains_attach {s sub after : TokenStream} {h : Handle} (done : s.attach h sub = .ok after) :
    ∀ d ∈ after.chains, d ∈ s.chains ∨ d ∈ sub.chains := by
  unfold attach at done
  cases checked : s.checkedIndex h with
  | error e => simp [checked, bind, Except.bind] at done
  | ok index =>
    simp only [checked, bind, Except.bind, pure, Except.pure, Except.ok.injEq] at done
    subst done
    intro d member
    rw [chains_eq] at member
    rcases List.mem_cons.mp member with rfl | deeper
    · exact .inl (by simp [chains_eq])
    · split_ifs at deeper
      · exact (chainsAmong_attached s.nested d deeper).imp_left fun inside => by simp [chains_eq, inside]
      · rw [chainsAmong_append] at deeper
        rcases List.mem_append.mp deeper with old | new
        · exact .inl (by simp [chains_eq, old])
        · exact .inr (by simpa [chainsAmong] using new)

end YaraRules.TokenStream
