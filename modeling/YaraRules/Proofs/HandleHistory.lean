import Mathlib.Algebra.Group.Nat.Defs
import YaraRules.Proofs.StreamRequests

/-! The history of handles. Through every run of requests a slot counts how often it was
freed, so as long as no count comes round again, a handle that is no longer held is
refused for good and no handle is given out twice. -/

namespace YaraRules.TokenStream

/-- The stream takes the handle for that of a token, in at least one of its operations. -/
def Accepts (s : TokenStream) (h : Handle) : Prop :=
  (s.get? h).isSome ∨ s.contains h = true ∨ (s.next? h).isSome ∨ (s.prev? h).isSome ∨
    (∃ token result, s.insertBefore h token = .ok result) ∨ (∃ token result, s.insertAfter h token = .ok result) ∨
    (∃ other result, s.erase h other = .ok result ∨ s.erase other h = .ok result) ∨
    ∃ other result, s.range h other = .ok result ∨ s.range other h = .ok result

private theorem get?_of_range_ends {s : TokenStream} {first last : Handle} {entries : List (Handle × Token)}
    (found : s.range first last = .ok entries) : (s.get? first).isSome ∧ (s.get? last).isSome := by
  unfold range checkedOwner checkedIndex at found
  cases held : s.owner? first.chain with
  | none => simp [held, bind, Except.bind] at found
  | some owner =>
  cases start : owner.chain.index? first with
  | none => simp [held, start, bind, Except.bind] at found
  | some i =>
  cases stop : owner.chain.index? last with
  | none => simp [held, start, stop, bind, Except.bind] at found
  | some j =>
    have ended : owner.chain.contains last = true := by simp [Chain.contains, stop]
    have same : last.chain = first.chain := (Chain.id_of_contains ended).trans (id_of_owner? held)
    exact ⟨get?_of_contains held (by simp [Chain.contains, start]), get?_of_contains (same ▸ held) ended⟩

private theorem get?_of_insertInto {s : TokenStream} {position : Handle} {place : Chain Token → Nat → Option Nat}
    {token : Token} {result : Handle × TokenStream} (done : s.insertInto position place token = .ok result) :
    (s.get? position).isSome := by
  unfold insertInto checkedOwner checkedIndex at done
  cases held : s.owner? position.chain with
  | none => simp [held, bind, Except.bind] at done
  | some owner =>
    cases found : owner.chain.index? position with
    | none => simp [held, found, bind, Except.bind] at done
    | some index => exact get?_of_contains held (by simp [Chain.contains, found])

private theorem get?_of_erase {s after : TokenStream} {first last : Handle} (done : s.erase first last = .ok after) :
    (s.get? first).isSome ∧ (s.get? last).isSome := by
  unfold erase checkedOwner at done
  cases held : s.owner? first.chain with
  | none => simp [held, bind, Except.bind] at done
  | some owner =>
    cases ranged : s.range first last with
    | ok entries => exact get?_of_range_ends ranged
    | error e =>
      have failed : owner.rangeHandles first last = .error e := by
        rw [← rangeHandles_owner held]
        simp [rangeHandles, ranged, bind, Except.bind]
      simp [held, failed, bind, Except.bind] at done

private theorem get?_of_neighbour {s : TokenStream} {h : Handle} (step : Chain Token → Option Handle)
    (needs : ∀ c : Chain Token, c.contains h = false → step c = none)
    (found : ((s.owner? h.chain).bind fun owner => step owner.chain).isSome) : (s.get? h).isSome := by
  cases held : s.owner? h.chain with
  | none => simp [held] at found
  | some owner =>
    cases present : owner.chain.contains h with
    | true => exact get?_of_contains held present
    | false => simp [held, needs owner.chain present] at found

/-- Whatever a stream accepts, it finds a token by. -/
theorem Accepts.get? {s : TokenStream} {h : Handle} (accepted : s.Accepts h) : (s.get? h).isSome := by
  rcases accepted with found | present | next | prev | ⟨_, _, done⟩ | ⟨_, _, done⟩ | ⟨_, _, done⟩ | ⟨_, _, done⟩
  · exact found
  · have own : s.owner? h.chain = some s := Chain.id_of_contains present ▸ s.owner?_self
    exact get?_of_contains own present
  · refine get?_of_neighbour (·.next? h) (fun c absent => ?_) next
    have missing : c.index? h = none := by simpa [Chain.contains] using absent
    simp [Chain.next?, missing]
  · refine get?_of_neighbour (·.prev? h) (fun c absent => ?_) prev
    have missing : c.index? h = none := by simpa [Chain.contains] using absent
    simp [Chain.prev?, missing]
  · exact get?_of_insertInto done
  · exact get?_of_insertInto done
  · rcases done with first | last
    · exact (get?_of_erase first).1
    · exact (get?_of_erase last).2
  · rcases done with first | last
    · exact (get?_of_range_ends first).1
    · exact (get?_of_range_ends last).2

namespace Group

/-- The token of a slot leaves it, while its stream stays in the group. -/
def freed (g after : Group) (id : ChainId) (index : Nat) : Bool :=
  match g.chain? id, after.chain? id with
  | some c, some d => (c.occupant? index).isSome && d.occupant? index != c.occupant? index
  | _, _ => false

/-- How often a slot of a stream is freed by a sequence of requests. -/
def timesFreed (g : Group) : List Request → ChainId → Nat → Nat
  | [], _, _ => 0
  | request :: rest, id, index =>
    (if g.freed (g.serve request).2 id index then 1 else 0) + (g.serve request).2.timesFreed rest id index

section Advance

variable {g : Group} {issued gone : List Handle}

theorem Advances.turned {after : Group} (sound : g.Sound) (advance : g.Advances after issued gone) {c d : Chain Token}
    (before : c ∈ g.chains) (behind : d ∈ after.chains) (same : d.id = c.id) : c.Turned d gone := by
  rcases advance.each d behind with ⟨origin, inside, turned⟩ | new
  · rwa [List.inj_on_of_nodup_map sound.chains_nodup before inside (same.symm.trans turned.id)]
  · have used := sound.fresh c.id (g.ids_eq ▸ List.mem_map_of_mem before)
    rw [← same] at used
    exact absurd new (Nat.not_le_of_lt used)

private theorem Advances.freed_eq {after : Group} (sound : g.Sound) (advance : g.Advances after issued gone)
    {c d : Chain Token} (before : c ∈ g.chains) (behind : d ∈ after.chains) (same : d.id = c.id)
    (index : Nat) : g.freed after c.id index = ((c.itemAt? index).isSome && decide (c.handle index ∈ gone)) := by
  have turned := advance.turned sound before behind same
  have found := sound.chain?_eq_some.mpr ⟨before, rfl⟩
  have found' := advance.sound.chain?_eq_some.mpr ⟨behind, same⟩
  simp only [freed, found, found', Chain.occupant?, Option.isSome_map]
  by_cases occupied : (c.itemAt? index).isSome
  · obtain ⟨item, stored⟩ := Option.isSome_iff_exists.mp occupied
    by_cases left : c.handle index ∈ gone
    · -- The slot counted on, so whatever is in it now has another handle.
      have other : d.handle index ≠ c.handle index := by
        intro equal
        have counted := turned.generation index
        rw [if_pos ⟨occupied, left⟩] at counted
        have generations := congrArg Handle.generation equal
        simp only [Chain.handle, counted] at generations
        simp at generations
      cases filled : d.itemAt? index with
      | none => simp [stored, left]
      | some new => simp [stored, left, other]
    · obtain ⟨new, filled⟩ := Option.isSome_iff_exists.mp (turned.kept index occupied left)
      simp [stored, filled, left, turned.handle_eq left]
  · have vacant : c.itemAt? index = none := by simpa using occupied
    simp [vacant]

theorem Advances.generation {after : Group} (sound : g.Sound) (advance : g.Advances after issued gone)
    {c d : Chain Token} (before : c ∈ g.chains) (behind : d ∈ after.chains) (same : d.id = c.id) (index : Nat) :
    d.generationAt index = c.generationAt index + UInt32.ofNat (if g.freed after c.id index then 1 else 0) := by
  rw [(advance.turned sound before behind same).generation index, advance.freed_eq sound before behind same index]
  by_cases left : (c.itemAt? index).isSome ∧ c.handle index ∈ gone
  · simp [left.1, left.2]
  · have stays : ((c.itemAt? index).isSome && decide (c.handle index ∈ gone)) = false := by simpa using left
    simp [left, stays]

private theorem Advances.chain?_none {after : Group} (sound : g.Sound) (advance : g.Advances after issued gone)
    {id : ChainId} (old : id < g.next) (missing : g.chain? id = none) : after.chain? id = none := by
  cases found : after.chain? id with
  | none => rfl
  | some d =>
    obtain ⟨inside, rfl⟩ := advance.sound.chain?_eq_some.mp found
    rcases advance.each d inside with ⟨c, origin, turned⟩ | new
    · rw [sound.chain?_eq_some.mpr ⟨origin, turned.id.symm⟩] at missing
      cases missing
    · exact absurd new (Nat.not_le_of_lt old)

private theorem Sound.chain?_of_holds (sound : g.Sound) {h : Handle} (held : g.Holds h) :
    ∃ c, g.chain? h.chain = some c ∧ c ∈ g.chains ∧ c.contains h = true := by
  obtain ⟨c, inside, present⟩ := sound.holds_iff.mp held
  exact ⟨c, sound.chain?_eq_some.mpr ⟨inside, (Chain.id_of_contains present).symm⟩, inside, present⟩

private theorem Sound.next_of_holds (sound : g.Sound) {h : Handle} (held : g.Holds h) : h.chain < g.next := by
  obtain ⟨c, _, inside, present⟩ := sound.chain?_of_holds held
  rw [Chain.id_of_contains present]
  exact sound.fresh _ (g.ids_eq ▸ List.mem_map_of_mem inside)

/-- A handle that is held stays so, unless its slot is freed or its stream is lost. -/
theorem Advances.holds {after : Group} (sound : g.Sound) (advance : g.Advances after issued gone) {h : Handle}
    (held : g.Holds h) : after.Holds h ∨ after.chain? h.chain = none ∨ g.freed after h.chain h.index = true := by
  obtain ⟨c, _, inside, present⟩ := sound.chain?_of_holds held
  have own := Chain.id_of_contains present
  cases found : after.chain? h.chain with
  | none => exact .inr (.inl rfl)
  | some d =>
    obtain ⟨behind, named⟩ := advance.sound.chain?_eq_some.mp found
    have same : d.id = c.id := named.trans own
    have turned := advance.turned sound inside behind same
    by_cases left : h ∈ gone
    · right; right
      obtain ⟨occupied, handle⟩ := (c.contains_iff_handle h).mp present
      rw [own, advance.freed_eq sound inside behind same]
      simp [occupied, handle, left]
    · exact .inl (advance.sound.holds_iff.mpr ⟨d, behind, turned.contains present left⟩)

/-- What is removed is held before and no longer after. -/
theorem Advances.removed {after : Group} (sound : g.Sound) (advance : g.Advances after issued gone) {h : Handle}
    (left : h ∈ gone) : g.Holds h ∧ ¬after.Holds h := by
  have held := advance.held h left
  refine ⟨held, fun still => ?_⟩
  obtain ⟨c, _, inside, present⟩ := sound.chain?_of_holds held
  obtain ⟨d, _, behind, present'⟩ := advance.sound.chain?_of_holds still
  have same : d.id = c.id := (Chain.id_of_contains present').symm.trans (Chain.id_of_contains present)
  rw [(advance.turned sound inside behind same).not_contains present left] at present'
  cases present'

end Advance

section Runs

variable {g : Group}

theorem Sound.serveAll (sound : g.Sound) (requests : List Request) : (g.serveAll requests).Sound := by
  induction requests generalizing g with
  | nil => exact sound
  | cons request rest ih => exact ih (sound.serve request).sound

private theorem serveAll_append (g : Group) (first second : List Request) :
    g.serveAll (first ++ second) = (g.serveAll first).serveAll second :=
  List.foldl_append

private theorem timesFreed_append (g : Group) (first second : List Request) (id : ChainId) (index : Nat) :
    g.timesFreed (first ++ second) id index =
      g.timesFreed first id index + (g.serveAll first).timesFreed second id index := by
  induction first generalizing g with
  | nil => simp [timesFreed, serveAll]
  | cons request rest ih =>
    rw [List.cons_append, timesFreed, timesFreed, ih, Nat.add_assoc]
    rfl

private theorem timesFreed_le (g : Group) (requests : List Request) (id : ChainId) (index : Nat) :
    g.timesFreed requests id index ≤ requests.length := by
  induction requests generalizing g with
  | nil => exact Nat.le_refl 0
  | cons request rest ih =>
    have later := ih (g.serve request).2
    rw [timesFreed, List.length_cons]
    split_ifs <;> omega

private theorem Sound.next_le (sound : g.Sound) (requests : List Request) : g.next ≤ (g.serveAll requests).next := by
  induction requests generalizing g with
  | nil => exact Nat.le_refl _
  | cons request rest ih =>
    have advance := sound.serve request
    exact Nat.le_trans advance.next (ih advance.sound)

private theorem Sound.chain?_none (sound : g.Sound) (requests : List Request) {id : ChainId} (old : id < g.next)
    (missing : g.chain? id = none) : (g.serveAll requests).chain? id = none := by
  induction requests generalizing g with
  | nil => exact missing
  | cons request rest ih =>
    have advance := sound.serve request
    exact ih advance.sound (Nat.lt_of_lt_of_le old advance.next) (advance.chain?_none sound old missing)

/-- The generation of a slot says how often the slot was freed. -/
theorem Sound.generation (sound : g.Sound) (requests : List Request) {c d : Chain Token} (before : c ∈ g.chains)
    (behind : d ∈ (g.serveAll requests).chains) (same : d.id = c.id) (index : Nat) :
    d.generationAt index = c.generationAt index + UInt32.ofNat (g.timesFreed requests c.id index) := by
  induction requests generalizing g c with
  | nil =>
    obtain rfl := List.inj_on_of_nodup_map sound.chains_nodup behind before same
    simp [timesFreed]
  | cons request rest ih =>
    have advance := sound.serve request
    have old := sound.fresh c.id (g.ids_eq ▸ List.mem_map_of_mem before)
    cases found : (g.serve request).2.chain? c.id with
    | none =>
      have gone := advance.sound.chain?_none rest (Nat.lt_of_lt_of_le old advance.next) found
      have late := (advance.sound.serveAll rest).chain?_eq_some.mpr ⟨behind, same⟩
      rw [gone] at late
      cases late
    | some middle =>
      obtain ⟨inside, named⟩ := advance.sound.chain?_eq_some.mp found
      rw [ih advance.sound inside behind (same.trans named.symm),
        advance.generation sound before inside named index, timesFreed, named, UInt32.add_assoc, ← UInt32.ofNat_add]

private theorem Sound.holds_or_freed (sound : g.Sound) (requests : List Request) {h : Handle} (held : g.Holds h) :
    (g.serveAll requests).Holds h ∨ (g.serveAll requests).chain? h.chain = none ∨
      0 < g.timesFreed requests h.chain h.index := by
  induction requests generalizing g with
  | nil => exact .inl held
  | cons request rest ih =>
    have advance := sound.serve request
    rcases advance.holds sound held with still | lost | freed
    · refine (ih advance.sound still).imp_right (Or.imp_right fun later => ?_)
      rw [timesFreed]
      omega
    · have old := Nat.lt_of_lt_of_le (sound.next_of_holds held) advance.next
      exact .inr (.inl (advance.sound.chain?_none rest old lost))
    · refine .inr (.inr ?_)
      rw [timesFreed, if_pos freed]
      omega

/-- A handle that is no longer held never comes back, unless its slot is freed too often. -/
theorem Sound.gone_for_good (sound : g.Sound) (between later : List Request) {h : Handle} (held : g.Holds h)
    (gone : ¬(g.serveAll between).Holds h)
    (rare : g.timesFreed (between ++ later) h.chain h.index < 2 ^ 32) : ¬(g.serveAll (between ++ later)).Holds h := by
  intro again
  have after := sound.serveAll (between ++ later)
  obtain ⟨c, _, inside, present⟩ := sound.chain?_of_holds held
  obtain ⟨d, found, behind, present'⟩ := after.chain?_of_holds again
  have own := Chain.id_of_contains present
  have counted := sound.generation (between ++ later) inside behind
    ((Chain.id_of_contains present').symm.trans own) h.index
  -- The generation is the old one, so the slot was not freed at all.
  have first := congrArg Handle.generation ((c.contains_iff_handle h).mp present).2
  have last := congrArg Handle.generation ((d.contains_iff_handle h).mp present').2
  simp only [Chain.handle] at first last
  rw [first, last, ← own] at counted
  have none : UInt32.ofNat (g.timesFreed (between ++ later) h.chain h.index) = 0 := by simpa using counted.symm
  have zero : g.timesFreed (between ++ later) h.chain h.index = 0 := by
    have numbers := congrArg UInt32.toNat none
    rwa [UInt32.toNat_ofNat_of_lt' rare] at numbers
  rw [timesFreed_append] at zero
  rcases sound.holds_or_freed between held with still | lost | freed
  · exact gone still
  · have old := sound.next_of_holds held
    have next := sound.next_le between
    have missing := (sound.serveAll between).chain?_none later (Nat.lt_of_lt_of_le old next) lost
    rw [← serveAll_append, found] at missing
    cases missing
  · omega

end Runs

theorem sound_none : ({} : Group).Sound := ⟨by simp, by simp [Group.ids], by simp [Group.ids]⟩

/-- A handle that no stream of a group holds is refused by all of them, at any depth. -/
theorem Sound.not_accepts {g : Group} (sound : g.Sound) {h : Handle} (gone : ¬g.Holds h) :
    ∀ s ∈ g.streams, ∀ id stream, s.owner? id = some stream → ¬stream.Accepts h := by
  intro s member id stream held accepted
  have found := accepted.get?
  rw [get?_eq] at found
  cases owned : stream.chainOf? h.chain with
  | none => simp [owned] at found
  | some c =>
    have inside := chains_of_owner? held (mem_chains_of_chainOf? owned).1
    refine gone (sound.holds_iff.mpr ⟨c, List.mem_flatMap.mpr ⟨s, member, inside⟩, ?_⟩)
    cases named : c.index? h with
    | none => simp [owned, Chain.get?, named] at found
    | some index => simp [Chain.contains, named]

end Group

/-- Stale handles are detected. In a run of requests that frees no slot as often as its
generation can count: a handle that was held and is not held any more is refused by
every stream from then on, which includes the handle of every token that was erased or
moved away; and the handles that a request gives out have not been held before. -/
theorem stale_handles_are_refused (history : List Request)
    (rare : ∀ id index, ({} : Group).timesFreed history id index < 2 ^ 32) :
    (∀ past between later rest h, history = past ++ (between ++ later) ++ rest →
      (({} : Group).serveAll past).Holds h → ¬(({} : Group).serveAll (past ++ between)).Holds h →
      ∀ s ∈ (({} : Group).serveAll (past ++ (between ++ later))).streams, ∀ id stream, s.owner? id = some stream →
        ¬stream.Accepts h) ∧
      (∀ past request later rest, history = past ++ ([request] ++ later) ++ rest →
        ∀ h ∈ (({} : Group).serveAll past).removed request,
        ∀ s ∈ (({} : Group).serveAll (past ++ ([request] ++ later))).streams, ∀ id stream, s.owner? id = some stream →
          ¬stream.Accepts h) ∧
      ∀ past request rest, history = past ++ [request] ++ rest →
        ∀ h ∈ ((({} : Group).serveAll past).serve request).1.issued,
        ∀ early, early <+: past → ¬(({} : Group).serveAll early).Holds h := by
  have sound := fun requests => Group.sound_none.serveAll requests
  -- Between two times of the run no slot is freed more often than in all of it.
  have within : ∀ past middle rest (h : Handle), history = past ++ middle ++ rest →
      (({} : Group).serveAll past).timesFreed middle h.chain h.index < 2 ^ 32 := by
    intro past middle rest h split
    have bound := rare h.chain h.index
    rw [split, Group.timesFreed_append, Group.timesFreed_append] at bound
    omega
  have lost : ∀ past between later rest h, history = past ++ (between ++ later) ++ rest →
      (({} : Group).serveAll past).Holds h → ¬(({} : Group).serveAll (past ++ between)).Holds h →
      ¬(({} : Group).serveAll (past ++ (between ++ later))).Holds h := by
    intro past between later rest h split held gone
    rw [Group.serveAll_append] at gone ⊢
    exact (sound past).gone_for_good between later held gone (within past _ rest h split)
  refine ⟨?_, ?_, ?_⟩
  · intro past between later rest h split held gone
    exact (sound _).not_accepts (lost past between later rest h split held gone)
  · intro past request later rest split h left
    obtain ⟨held, gone⟩ := ((sound past).serve request).removed (sound past) left
    refine (sound _).not_accepts (lost past [request] later rest h split held ?_)
    rw [Group.serveAll_append]
    exact gone
  · intro past request rest split h given early ahead held
    obtain ⟨between, rfl⟩ := ahead
    have advance := (sound (early ++ between)).serve request
    -- A handle that was held once, and not just before, would have come back.
    refine lost early between [request] rest h (by simpa using split) held (advance.fresh h given) ?_
    have after := advance.given h given
    rwa [← List.append_assoc, Group.serveAll_append]

/-- The token of an inner stream is erased and another one takes its slot. -/
theorem stale_handles_are_refused_reused_slot :
    let letter (text : String) : Token := { kind := .identifier, literal := .ofText text }
    let past : List Request := [.create, .create, .push 0 (letter "a"), .push 1 (letter "b"), .attach 0 ⟨0, 0, 0⟩ 1]
    let history : List Request := past ++ ([.eraseOne 0 ⟨1, 0, 0⟩] ++ [.push 1 (letter "c")]) ++ []
    (∀ id index, ({} : Group).timesFreed history id index < 2 ^ 32) ∧
      ⟨1, 0, 0⟩ ∈ (({} : Group).serveAll past).removed (.eraseOne 0 ⟨1, 0, 0⟩) ∧
      ∀ s ∈ (({} : Group).serveAll history).streams, ∀ id stream, s.owner? id = some stream →
        ¬stream.Accepts ⟨1, 0, 0⟩ := by
  intro letter past history
  have rare : ∀ id index, ({} : Group).timesFreed history id index < 2 ^ 32 := by
    intro id index
    exact Nat.lt_of_le_of_lt (({} : Group).timesFreed_le history id index) (by decide)
  have removed : ⟨1, 0, 0⟩ ∈ (({} : Group).serveAll past).removed (.eraseOne 0 ⟨1, 0, 0⟩) := by decide +kernel
  refine ⟨rare, removed, ?_⟩
  exact (stale_handles_are_refused history rare).2.1 past _ [.push 1 (letter "c")] [] rfl _ removed

end YaraRules.TokenStream
