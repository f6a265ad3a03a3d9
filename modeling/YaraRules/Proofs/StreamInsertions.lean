import YaraRules.Proofs.StreamMoves

/-! Single insertions: a token next to another one, and a stream for a token to own. -/

namespace YaraRules.TokenStream

theorem Sound.insertBefore {s after : TokenStream} (sound : s.Sound) {before new : Handle} {token : Token}
    (own : before.chain = s.chain.id) (done : s.insertBefore before token = .ok (new, after)) :
    after.Sound ∧ after.ids = s.ids ∧ after.chain.id = s.chain.id ∧
      ∃ front piece back, s.view = front ++ piece :: back ∧ piece.1 = before ∧
        after.view = front ++ (new, token, none) :: piece :: back := by
  unfold TokenStream.insertBefore insertInto checkedOwner at done
  rw [own, owner?_self] at done
  cases checked : s.checkedIndex before with
  | error e => simp [checked, bind, Except.bind] at done
  | ok index =>
    obtain ⟨front, old, sub, back, split, rfl⟩ := sound.split_at checked
    rcases placed : s.chain.insertAt (frontOf ((before, old, sub) :: back)) token with ⟨h, chain⟩
    have placed' : s.chain.insertAt (some before.index) token = (h, chain) := placed
    simp only [checked, bind, Except.bind, placed', pure, Except.pure, modifyOwner_self, Except.ok.injEq,
      Prod.mk.injEq] at done
    obtain ⟨rfl, rfl⟩ := done
    obtain ⟨sound', view, id, _⟩ := sound.insert split placed
    exact ⟨sound', s.ids_withChain id, id, front, _, back, split, rfl, view⟩

theorem Sound.insertAfter {s after : TokenStream} (sound : s.Sound) {behind new : Handle} {token : Token}
    (own : behind.chain = s.chain.id) (done : s.insertAfter behind token = .ok (new, after)) :
    after.Sound ∧ after.ids = s.ids ∧ after.chain.id = s.chain.id ∧
      ∃ front piece back, s.view = front ++ piece :: back ∧ piece.1 = behind ∧
        after.view = front ++ piece :: (new, token, none) :: back := by
  unfold TokenStream.insertAfter insertInto checkedOwner at done
  rw [own, owner?_self] at done
  cases checked : s.checkedIndex behind with
  | error e => simp [checked, bind, Except.bind] at done
  | ok index =>
    obtain ⟨front, old, sub, back, split, rfl⟩ := sound.split_at checked
    have next : s.chain.nextAt behind.index = frontOf back := by
      obtain ⟨ahead, rest, entries, _, tail⟩ := List.map_eq_append_iff.mp split
      obtain ⟨entry, others, rfl, same, rfl⟩ := List.map_eq_cons_iff.mp tail
      have slot : Chain.slotOf entry = behind.index := congrArg (·.1.index) same
      rw [← slot, sound.chain.nextAt_eq entries]
      cases others <;> rfl
    rcases placed : s.chain.insertAt (frontOf back) token with ⟨h, chain⟩
    simp only [checked, bind, Except.bind, next, placed, pure, Except.pure, modifyOwner_self, Except.ok.injEq,
      Prod.mk.injEq] at done
    obtain ⟨rfl, rfl⟩ := done
    have split' : s.view = (front ++ [(behind, old, sub)]) ++ back := by simp [split]
    obtain ⟨sound', view, id, _⟩ := sound.insert split' placed
    exact ⟨sound', s.ids_withChain id, id, front, _, back, split, rfl, by simpa using view⟩

/-- Gives the stream of one slot another content. -/
private def replaceAt (index : Nat) (held : TokenStream) (nested : List (Nat × Option TokenStream)) :
    List (Nat × Option TokenStream) :=
  nested.map fun (place, old) => if place = index then (place, some held) else (place, old)

private theorem places_replaceAt (index : Nat) (held : TokenStream) (nested : List (Nat × Option TokenStream)) :
    (replaceAt index held nested).map (·.1) = nested.map (·.1) := by
  rw [replaceAt, List.map_map]
  refine List.map_congr_left fun place _ => ?_
  by_cases same : place.1 = index <;> simp [same]

private theorem lookup_replaceAt (index : Nat) (held : TokenStream) (other : Nat) :
    ∀ nested : List (Nat × Option TokenStream), (replaceAt index held nested).lookup other =
      if other = index then (nested.lookup other).map fun _ => some held else nested.lookup other
  | [] => by simp [replaceAt]
  | (place, old) :: rest => by
    have later := lookup_replaceAt index held other rest
    rw [replaceAt, List.map_cons, ← replaceAt, lookup_cons_eq]
    by_cases here : place = index
    · subst here
      rw [if_pos rfl, lookup_cons_eq, later]
      split_ifs <;> simp
    · rw [if_neg here, lookup_cons_eq, later]
      split_ifs <;> simp_all

private theorem soundAmong_replaceAt (index : Nat) {held : TokenStream} (sub : held.Sound) :
    ∀ {nested : List (Nat × Option TokenStream)}, SoundAmong nested → SoundAmong (replaceAt index held nested)
  | [], _ => trivial
  | (place, some old) :: rest, ⟨first, others⟩ => by
    have later := soundAmong_replaceAt index sub others
    by_cases here : place = index
    · simpa [replaceAt, here] using ⟨sub, later⟩
    · simpa [replaceAt, here] using ⟨first, later⟩

private theorem count_replaceAt {index : Nat} {held : TokenStream} (id : ChainId) :
    ∀ {nested : List (Nat × Option TokenStream)}, (nested.map (·.1)).Nodup →
    (idsAmong (replaceAt index held nested)).count id ≤ (idsAmong nested).count id + held.ids.count id
  | [], _ => by simp [replaceAt, idsAmong]
  | (place, old) :: rest, nodup => by
    obtain ⟨fresh, others⟩ := List.nodup_cons.mp nodup
    change (idsAmong ((if place = index then (place, some held) else (place, old)) :: replaceAt index held rest)).count
      id ≤ _
    by_cases here : place = index
    · -- No other place is changed, and the stream that was held is given up.
      subst here
      have kept : replaceAt place held rest = rest := by
        refine (List.map_congr_left fun other member => ?_).trans (List.map_id rest)
        have apart : other.1 ≠ place := fun same => fresh (List.mem_map.mpr ⟨other, member, same⟩)
        simp [apart]
      rw [if_pos rfl, kept, idsAmong_cons, idsAmong_cons, List.count_append, List.count_append]
      simp only [idsOf, Option.map_some, Option.getD_some]
      omega
    · have later : (idsAmong (replaceAt index held rest)).count id ≤ (idsAmong rest).count id + held.ids.count id :=
        count_replaceAt id others
      rw [if_neg here, idsAmong_cons, idsAmong_cons, List.count_append, List.count_append]
      omega

theorem Sound.attach {s after held : TokenStream} (sound : s.Sound) (sub : held.Sound) {h : Handle}
    (done : s.attach h held = .ok after) :
    after.Sound ∧ (∀ id, after.ids.count id ≤ s.ids.count id + held.ids.count id) ∧ after.chain.id = s.chain.id ∧
      ∃ front token old back, s.view = front ++ (h, token, old) :: back ∧
        after.view = front ++ (h, token, some held) :: back := by
  unfold TokenStream.attach at done
  cases checked : s.checkedIndex h with
  | error e => simp [checked, bind, Except.bind] at done
  | ok index =>
    obtain ⟨front, token, old, back, split, rfl⟩ := sound.split_at checked
    have occupied : h.index ∈ s.chain.entries.map Chain.slotOf := by
      have member : (h, token, old) ∈ s.view := by simp [split]
      obtain ⟨entry, inside, same⟩ := List.mem_map.mp member
      exact List.mem_map.mpr ⟨entry, inside, congrArg (·.1.index) same⟩
    by_cases listed : h.index ∈ s.nested.map (·.1)
    · have any : s.nested.any (·.1 == h.index) = true := by simpa using listed
      have after_eq : (⟨s.chain, replaceAt h.index held s.nested⟩ : TokenStream) = after := by
        simpa [checked, bind, Except.bind, pure, Except.pure, any, replaceAt] using done
      subst after_eq
      refine ⟨?_, fun id => ?_, rfl, front, token, old, back, split, ?_⟩
      · cases s
        obtain ⟨linked, nodup, placed, among⟩ := sound
        refine ⟨linked, (places_replaceAt _ _ _).symm ▸ nodup, fun place member => ?_, soundAmong_replaceAt _ sub among⟩
        have inside : place.1 ∈ (replaceAt h.index held _).map (·.1) := List.mem_map_of_mem member
        rw [places_replaceAt] at inside
        obtain ⟨other, listed, same⟩ := List.mem_map.mp inside
        exact same ▸ placed other listed
      · cases s with
        | mk chain nested =>
          have bound : (idsAmong (replaceAt h.index held nested)).count id ≤
              (idsAmong nested).count id + held.ids.count id := count_replaceAt id sound.places_nodup
          simp only [ids, List.count_cons]
          omega
      · obtain ⟨place, found⟩ : ∃ place, s.nested.lookup h.index = some place := by
          cases found : s.nested.lookup h.index with
          | none =>
            obtain ⟨place, inside, same⟩ := List.mem_map.mp listed
            simpa [same] using List.lookup_eq_none_iff.mp found place inside
          | some place => exact ⟨place, rfl⟩
        rw [← sound.view_at split fun piece => (piece.1, piece.2.1, some held), view, view, List.map_map]
        refine List.map_congr_left fun entry _ => ?_
        by_cases same : entry.1.index = h.index
        · simp [piece, subAt?, lookup_replaceAt, same, found]
        · simp [piece, subAt?, lookup_replaceAt, same]
    · have any : s.nested.any (·.1 == h.index) = false := by
        refine List.any_eq_false.mpr fun place inside same => listed ?_
        exact List.mem_map.mpr ⟨place, inside, by simpa using same⟩
      have after_eq : (⟨s.chain, s.nested ++ [(h.index, some held)]⟩ : TokenStream) = after := by
        simpa [checked, bind, Except.bind, pure, Except.pure, any] using done
      subst after_eq
      obtain ⟨sound', view, ids⟩ := sound.own occupied listed sub
      refine ⟨sound', fun id => ?_, rfl, front, token, old, back, split, view.trans (sound.view_at split _)⟩
      exact Nat.le_of_eq (by rw [ids, List.count_append])

end YaraRules.TokenStream
