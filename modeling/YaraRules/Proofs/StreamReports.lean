import YaraRules.Proofs.HandleHistory
import YaraRules.Proofs.StreamSplices

/-! Reports of moves. A move answers with the handles that it moved and those that they have
now. Where the range is in the source itself, that is the whole range. A range of a stream
that is nested in the source is found as well, but it stays, and the report is empty. -/

namespace YaraRules.TokenStream

variable {target source target' source' : TokenStream} {before : Option Handle} {first last : Handle} {names : Renaming}

/-- The tokens of these handles, in this order, left a stream and now stand right before a token of
another one, or at its end. -/
structure Delivered (target : TokenStream) (before : Option Handle) (handles : List Handle) (names : Renaming)
    (target' source' : TokenStream) : Prop where
  named : names.pairs.map (·.1) = handles
  left : ∀ h ∈ handles, source'.get? h = none
  placed : ∃ ahead behind, target.entries.map (·.1) = ahead ++ behind ∧ behind.head? = before ∧
    target'.entries.map (·.1) = ahead ++ (names.pairs.map (·.2) ++ behind)

private theorem Sound.delivers (sound : target.Sound) (sound' : source.Sound) (distinct : source.ids.Nodup)
    (own : first.chain = source.chain.id) {handles : List Handle}
    (ranged : source.rangeHandles first last = .ok handles)
    (done : target.moveRange before source first last =
    (.ok (names, target'), source')) : Delivered target before handles names target' source' := by
  obtain ⟨_, after, _, id, _, ahead, behind, front, middle, back, moved, into, position, outof, spans, arrived, carried,
    pairs, stay⟩ := sound.moveRange sound' distinct own done
  obtain rfl : handles = middle.map (·.1) := Except.ok.inj (ranged.symm.trans (sound'.rangeHandles_ok outof spans))
  have lengths : middle.length = moved.length := carried.length_eq
  refine ⟨?_, fun h member => ?_, ahead.map (·.1), behind.map (·.1), ?_, ?_, ?_⟩
  · rw [pairs, renamed, List.map_fst_zip (by simp [lengths])]
  · -- What is left are the pieces around the range, and no handle stands twice in the source.
    have once := sound'.handles_nodup
    rw [outof, List.map_append, List.map_append] at once
    obtain ⟨_, rest, ahead⟩ := List.nodup_append'.mp once
    have apart : h ∉ source'.view.map (·.1) := by
      intro still
      rw [handles_of_stays stay, List.map_append] at still
      rcases List.mem_append.mp still with early | late
      · exact ahead early (List.mem_append_left _ member)
      · exact (List.nodup_append'.mp rest).2.2 member late
    obtain ⟨piece, inside, rfl⟩ := List.mem_map.mp member
    have top : piece.1.chain = source'.chain.id := (sound'.chain_of_view (by simp [outof, inside])).trans id.symm
    rw [get?_top source' top]
    cases stored : source'.chain.get? piece.1 with
    | none => rfl
    | some token =>
      have listed := List.mem_map_of_mem (f := source'.piece) ((after.chain.get?_eq_some _ _).mp stored)
      exact absurd (List.mem_map_of_mem (f := (·.1)) listed) apart
  · rw [handles_view, into, List.map_append]
  · rw [List.head?_map, position]
  · rw [handles_view, arrived, pairs, renamed, List.map_snd_zip (by simp [lengths]), List.map_append, List.map_append]

private theorem Sound.delivers_nothing (sound : source.Sound) (distinct : source.ids.Nodup)
    (other : first.chain ≠ source.chain.id) {handles : List Handle}
    (ranged : source.rangeHandles first last = .ok handles)
    (done : target.moveRange before source first last = (.ok (names, target'), source')) : names.pairs = [] ∧
    target' = target ∧ ∀ h ∈ handles, (source'.get? h).isSome := by
  obtain ⟨same, empty, settled, _⟩ := moveRange_inner sound distinct other done
  refine ⟨empty, same, fun h member => ?_⟩
  have chain := chain_of_rangeHandles ranged member
  cases outer : source.owner? first.chain with
  | none =>
    have missing : source.chainOf? first.chain = none := by simp [chainOf?, outer]
    simp [TokenStream.rangeHandles, range_eq, missing, bind, Except.bind] at ranged
  | some owner =>
    obtain ⟨_, held⟩ := (sound.owner? outer).range_held (id_of_owner? outer).symm
      ((rangeHandles_owner outer).symm.trans ranged)
    obtain ⟨token, stored⟩ := Option.isSome_iff_exists.mp (get?_of_contains (chain ▸ outer) (held h member))
    have tokens := settled.alike.get? sound settled.sound h
    rw [stored] at tokens
    cases kept : source'.get? h with
    | none => rw [kept] at tokens; cases tokens
    | some _ => rfl

namespace Group

/-- A move that is reported, between any two streams that ever exist together. If the range is
in the source itself, the report names the tokens from the first to the last; all of them left the
source, and they are together, in their order, before the given token or at the end. If the range is
in a stream below, the report is empty, and the target and the range are as they were. -/
theorem reported_moves (requests : List Request) {target source : ChainId} {t s t' s' : TokenStream}
    (targeted : (({} : Group).serveAll requests).stream? target = some t)
    (sourced : (({} : Group).serveAll requests).stream? source = some s)
    (done : t.moveRange before s first last = (.ok (names, t'), s')) :
    ∃ handles, s.rangeHandles first last = .ok handles ∧
      (first.chain = s.id → Delivered t before handles names t' s') ∧
      (first.chain ≠ s.id → names.pairs = [] ∧ t' = t ∧ ∀ h ∈ handles, (s'.get? h).isSome) := by
  have sound := sound_none.serveAll requests
  obtain ⟨soundT, _⟩ := sound.stream? targeted
  obtain ⟨soundS, distinct⟩ := sound.stream? sourced
  cases ranged : s.rangeHandles first last with
  | error e =>
    unfold TokenStream.moveRange at done
    cases checked : t.checkedPosition before <;> simp [checked, ranged] at done
  | ok handles =>
    exact ⟨handles, rfl, fun own => soundT.delivers soundS distinct own ranged done,
      fun other => soundS.delivers_nothing distinct other ranged done⟩

/-- The range is the token of a stream that the token of the source owns: it is found and stays. -/
theorem reported_moves_below :
    let directive : Token := { kind := .kwInclude, literal := .ofText "include" }
    let letter : Token := { kind := .identifier, literal := .ofText "x" }
    let g := ({} : Group).serveAll
      [.create, .push 0 directive, .create, .push 1 letter, .attach 0 ⟨0, 0, 0⟩ 1, .create]
    let x : Handle := ⟨1, 0, 0⟩
    ∃ t s t' s' names, g.stream? 2 = some t ∧ g.stream? 0 = some s ∧
      t.moveRange none s x x = (.ok (names, t'), s') ∧ s.rangeHandles x x = .ok [x] ∧
      names.pairs = [] ∧ t' = t ∧ (s'.get? x).isSome := by
  intro directive letter g x
  let t := (g.stream? 2).get (by decide +kernel)
  let s := (g.stream? 0).get (by decide +kernel)
  have targeted : g.stream? 2 = some t := (Option.some_get _).symm
  have sourced : g.stream? 0 = some s := (Option.some_get _).symm
  have ranged : s.rangeHandles x x = .ok [x] := by decide +kernel
  have nested : x.chain ≠ s.id := by decide +kernel
  have granted : (t.moveRange none s x x).1.toOption.isSome := by decide +kernel
  cases done : t.moveRange none s x x with
  | mk result s' =>
  cases result with
  | error e => simp [done, Except.toOption] at granted
  | ok moved =>
    obtain ⟨names, t'⟩ := moved
    obtain ⟨handles, found, _, still⟩ := reported_moves _ targeted sourced done
    obtain rfl : [x] = handles := Except.ok.inj (ranged.symm.trans found)
    obtain ⟨empty, same, held⟩ := still nested
    exact ⟨t, s, t', s', names, targeted, sourced, done, ranged, empty, same, held x (by simp)⟩

end Group

end YaraRules.TokenStream
