import YaraRules.Proofs.HandleHistory

/-! Requests that are refused. What asks one stream checks every handle before it changes
anything, and so does the move of a range. A move of everything and an exchange write the
line breaks of their source before they check the place, and a stream that is to be
attached is given away in any case. -/

namespace YaraRules.TokenStream

/-- A token with its handle, after the line breaks of one chain were written anew. -/
def rebroken (source : Option ChainId) (newline : Option String) (entry : Handle × Token) : Handle × Token :=
  if source = some entry.1.chain ∧ entry.2.kind == .newLine then
    (entry.1, { entry.2 with literal := (newline.map Literal.ofWritten).getD entry.2.literal })
  else entry

section Breaks

variable {id : ChainId} {text : String}

@[simp] theorem handle_rebroken (source : Option ChainId) (newline : Option String) (entry : Handle × Token) :
    (rebroken source newline entry).1 = entry.1 := by
  unfold rebroken
  split <;> rfl

private theorem rebroken_apart {source : Option ChainId} {newline : Option String} {entry : Handle × Token}
    (apart : source ≠ some entry.1.chain) : rebroken source newline entry = entry :=
  if_neg fun both => apart both.1

private theorem map_rebroken_none (source : Option ChainId) (entries : List (Handle × Token)) :
    entries.map (rebroken source none) = entries := by
  have same : rebroken source none = fun entry => entry := funext fun entry => by
    unfold rebroken
    split <;> rfl
  rw [same, List.map_id']

/-- What is done to the tokens of a stream and to those nested in it is done to all of them. -/
theorem deepEntries_map {chain chain' : Chain Token} {nested nested' : List (Nat × Option TokenStream)}
    {change : Handle × Token → Handle × Token} (handles : ∀ entry, (change entry).1 = entry.1)
    (entries : chain'.entries = chain.entries.map change)
    (subs : deepEntriesAmong nested' = (deepEntriesAmong nested).map fun place => (place.1, place.2.map change)) :
    deepEntries ⟨chain', nested'⟩ = (deepEntries ⟨chain, nested⟩).map change := by
  have found : ∀ index, (((deepEntriesAmong nested').lookup index).getD []) =
      (((deepEntriesAmong nested).lookup index).getD []).map change := by
    intro index
    rw [subs]
    induction deepEntriesAmong nested with
    | nil => rfl
    | cons place rest ih =>
      obtain ⟨here, listed⟩ := place
      simp only [List.map_cons, List.lookup_cons]
      cases index == here
      · exact ih
      · rfl
  simp only [deepEntries, entries, List.map_flatMap, List.flatMap_map]
  refine List.flatMap_congr fun entry _ => ?_
  rw [found, handles, List.map_cons]
  exact congrArg (· :: _) (Prod.ext (handles entry).symm rfl)

private theorem Sound.rebroken_absent {s : TokenStream} (sound : s.Sound) (distinct : s.ids.Nodup) (absent : id ∉ s.ids)
    (newline : Option String) : s.deepEntries.map (rebroken (some id) newline) = s.deepEntries := by
  refine (List.map_congr_left fun entry member => ?_).trans (List.map_id _)
  obtain ⟨owner, held, _⟩ := sound.owner?_of_deep distinct member
  exact rebroken_apart fun same => absent (Option.some.inj same ▸ mem_ids_of_owner? held)

private theorem SoundAmong.rebroken_absent {nested : List (Nat × Option TokenStream)} (sound : SoundAmong nested)
    (distinct : (idsAmong nested).Nodup) (absent : id ∉ idsAmong nested) (newline : Option String) :
    ((deepEntriesAmong nested).map fun place => (place.1, place.2.map (rebroken (some id) newline))) =
      deepEntriesAmong nested := by
  have each : ∀ place ∈ deepEntriesAmong nested,
      (place.1, place.2.map (rebroken (some id) newline)) = place := fun place member => by
    refine Prod.ext rfl ((List.map_congr_left fun entry held => ?_).trans (List.map_id _))
    obtain ⟨owner, found, _⟩ := sound.owner?_of_deep distinct member held
    exact rebroken_apart fun same => absent (Option.some.inj same ▸ mem_ids_of_ownerAmong? found)
  rw [List.map_congr_left each, List.map_id']

mutual

/-- Only the line breaks of the stream that is addressed are written anew, at whatever depth it is. -/
theorem Sound.deepEntries_setNewlines : ∀ {s : TokenStream}, s.Sound → s.ids.Nodup →
    (s.modifyOwner id (·.setNewlines text)).deepEntries = s.deepEntries.map (rebroken (some id) (some text))
  | ⟨chain, nested⟩, ⟨linked, _, _, sub⟩, distinct => by
    simp only [ids, List.nodup_cons] at distinct
    unfold modifyOwner
    by_cases here : chain.id = id
    · rw [if_pos here]
      refine deepEntries_map (handle_rebroken _ _) ?_ (sub.rebroken_absent distinct.2 (here ▸ distinct.1) _).symm
      rw [(linked.mapItems _).2]
      refine List.map_congr_left fun entry member => ?_
      have own : entry.1.chain = id := (linked.chain_eq member).trans here
      by_cases broken : (entry.2.kind == .newLine) = true <;> simp [rebroken, own, broken]
    · rw [if_neg here]
      refine deepEntries_map (handle_rebroken _ _) ?_ (SoundAmong.deepEntries_setNewlines sub distinct.2)
      refine ((List.map_congr_left fun entry member => ?_).trans (List.map_id _)).symm
      exact rebroken_apart fun same => here ((linked.chain_eq member).symm.trans (Option.some.inj same).symm)

private theorem SoundAmong.deepEntries_setNewlines : ∀ {nested : List (Nat × Option TokenStream)}, SoundAmong nested →
    (idsAmong nested).Nodup → deepEntriesAmong (modifyOwnerAmong id (·.setNewlines text) nested) =
      (deepEntriesAmong nested).map fun place => (place.1, place.2.map (rebroken (some id) (some text)))
  | [], _, _ => rfl
  | (index, some s) :: rest, ⟨first, others⟩, distinct => by
    simp only [idsAmong, List.nodup_append'] at distinct
    unfold modifyOwnerAmong
    by_cases inside : (s.owner? id).isSome = true
    · obtain ⟨owner, held⟩ := Option.isSome_iff_exists.mp inside
      rw [if_pos inside]
      simp only [deepEntriesAmong, List.map_cons]
      rw [Sound.deepEntries_setNewlines first distinct.1,
        others.rebroken_absent distinct.2.1 (distinct.2.2 (mem_ids_of_owner? held))]
    · have missing : id ∉ s.ids := fun member => by
        obtain ⟨owner, held⟩ := owner?_of_mem_ids member
        simp [held] at inside
      rw [if_neg inside]
      simp only [deepEntriesAmong, List.map_cons]
      rw [SoundAmong.deepEntries_setNewlines others distinct.2.1, first.rebroken_absent distinct.1 missing]

end

private theorem Sound.deepEntries_adoptNewlines {s : TokenStream} (sound : s.Sound) (distinct : s.ids.Nodup)
    (target : TokenStream) :
    (s.modifyOwner id (·.adoptNewlines target)).deepEntries =
      s.deepEntries.map (rebroken (some id) target.firstNewline?) := by
  unfold TokenStream.adoptNewlines
  cases target.firstNewline? with
  | some text => exact sound.deepEntries_setNewlines distinct
  | none =>
    show (s.modifyOwner id fun owner => owner).deepEntries = _
    rw [modifyOwner_same, map_rebroken_none]

end Breaks

/-- The stream that a request takes all tokens out of. -/
def Request.emptied? : Request → Option ChainId
  | .moveAll _ _ source | .exchange _ _ _ source => some source
  | _ => none

/-- The stream that a request gives away. -/
def Request.given? : Request → Option ChainId
  | .attach _ _ held => some held
  | _ => none

namespace Group

/-- Changes the stream with an identity, at whatever depth it is. -/
def modifyOwner (g : Group) (id : ChainId) (f : TokenStream → TokenStream) : Group :=
  { g with streams := g.streams.map (·.modifyOwner id f) }

/-- What the target of a move that fails leaves of the source. -/
def leaving (g : Group) (target source : ChainId) (leave : TokenStream → TokenStream → TokenStream) : Group :=
  match g.stream? target with
  | some t => if g.rootOf target = g.rootOf source then g else g.modifyOwner source (leave t)
  | none => g

/-- What a request that is refused leaves of a group. -/
def leftBy (g : Group) : Request → Group
  | .attach id _ held => if g.rootOf id = held then g else g.remove held
  | .moveAll target _ source => g.leaving target source fun t s => s.adoptNewlines t
  | .exchange target first last source => g.leaving target source fun t s => t.unexchanged first last s
  | _ => g

variable {g : Group} {id : ChainId} {f : TokenStream → TokenStream}

private theorem modifyOwner_missing (missing : ∀ s ∈ g.streams, s.owner? id = none) : g.modifyOwner id f = g := by
  unfold Group.modifyOwner
  rw [List.map_congr_left fun s member => modifyOwner_absent (missing s member), List.map_id']

private theorem leaving_same {target source : ChainId} : g.leaving target source (fun _ s => s) = g := by
  unfold leaving
  cases g.stream? target with
  | none => rfl
  | some t =>
    have same : g.modifyOwner source (fun s => s) = g := by
      unfold Group.modifyOwner
      rw [List.map_congr_left fun s _ => modifyOwner_same s, List.map_id']
    simp [same]

private theorem update_leaves {top id : ChainId} {change : TokenStream → Except Error (Answer × TokenStream)}
    (granted : ∀ s answer s', change s = .ok (answer, s') → answer ≠ .refused)
    (refused : (g.update top (within id change)).1 = .refused) : (g.update top (within id change)).2 = g := by
  unfold Group.update at refused ⊢
  cases outer : g.find? top with
  | none => rfl
  | some root =>
  cases held : root.owner? id with
  | none => simp [within, held]
  | some s =>
  cases done : change s with
  | error e => simp [within, held, done, Except.map]
  | ok result => exact absurd (by simpa [outer, within, held, done, Except.map] using refused) (granted s _ _ done)

private theorem granted_of_map {β : Type} {result : Except Error β} {f : β → Answer × TokenStream} {answer : Answer}
    {s : TokenStream} (granted : ∀ b, (f b).1 ≠ .refused)
    (done : result.map f = .ok (answer, s)) : answer ≠ .refused := by
  cases result with
  | error e => cases done
  | ok b =>
    have same := Except.ok.inj done
    exact fun refused => granted b ((congrArg (·.1) same).trans refused)

private theorem remove_missing (missing : g.find? id = none) : g.remove id = g := by
  unfold Group.remove
  rw [List.filter_eq_self.mpr fun s member => by simpa using List.find?_eq_none.mp missing s member]

namespace Sound

/-- Only one stream of a group has another one in it, and it is found by it. -/
theorem root (sound : g.Sound) {s owner : TokenStream} (member : s ∈ g.streams) (held : s.owner? id = some owner) :
    g.find? (g.rootOf id) = some s := by
  obtain ⟨first, found⟩ : ∃ first, (g.streams.find? fun s => (s.owner? id).isSome) = some first :=
    Option.isSome_iff_exists.mp (List.find?_isSome.mpr ⟨s, member, by simp [held]⟩)
  have among := List.mem_of_find?_eq_some found
  obtain ⟨owner', held'⟩ : ∃ owner', first.owner? id = some owner' :=
    Option.isSome_iff_exists.mp (by simpa using List.find?_some found)
  have same : first = s := by
    by_contra different
    have inside : owner'.chain ∈ first.chains := chains_of_owner? held' (by simp [chains_eq])
    have inside' : owner.chain ∈ s.chains := chains_of_owner? held (by simp [chains_eq])
    exact sound.apart among member (fun top => different (sound.eq_of_top among member top)) inside inside'
      ((id_of_owner? held').trans (id_of_owner? held).symm)
  subst same
  have named : g.rootOf id = first.chain.id := by simp [rootOf, found]
  rw [named]
  cases top : g.find? first.chain.id with
  | none =>
    have missing := List.find?_eq_none.mp top first member
    simp at missing
  | some other => exact congrArg some (sound.eq_of_top (find?_some top).1 member (find?_some top).2)

private theorem nowhere (sound : g.Sound) (missing : g.stream? id = none) :
    ∀ s ∈ g.streams, s.owner? id = none := fun s member =>
  Option.eq_none_iff_forall_ne_some.mpr fun owner held =>
    by simp [Group.stream?, sound.root member held, held] at missing

private theorem put_modifyOwner (sound : g.Sound) {s owner : TokenStream} (member : s ∈ g.streams)
    (held : s.owner? id = some owner)
    (kept : (f owner).chain.id = owner.chain.id) : g.put (s.modifyOwner id f) = g.modifyOwner id f := by
  have named : (s.modifyOwner id f).chain.id = s.chain.id := id_modifyOwner fun other found => by
    rwa [Option.some.inj (found.symm.trans held)]
  unfold Group.put Group.modifyOwner
  refine congrArg (fun streams => { g with streams }) (List.map_congr_left fun old among => ?_)
  rw [named]
  split_ifs with same
  · rw [sound.eq_of_top among member same]
  · refine (modifyOwner_absent (Option.eq_none_iff_forall_ne_some.mpr fun other found => same ?_)).symm
    have here := Option.some.inj ((sound.root member held).symm.trans (sound.root among found))
    rw [here]

/-- A request to two streams that is refused leaves the target as it was, and of the source
what the change that failed leaves of it. -/
theorem updateTwo_leaves (sound : g.Sound) (target source : ChainId) {change : TokenStream → TokenStream → Moved}
    {leave : TokenStream → TokenStream → TokenStream} (kept : ∀ t s, s.Sound → (leave t s).chain.id = s.chain.id)
    (fails : ∀ t s e s', t.Sound → s.Sound → s.ids.Nodup → change t s = (.error e, s') → s' = leave t s)
    (refused : (g.updateTwo (g.rootOf target) (g.rootOf source) (withinTwo target source change)).1 = .refused) :
    (g.updateTwo (g.rootOf target) (g.rootOf source) (withinTwo target source change)).2 =
      g.leaving target source leave := by
  rcases sound.updateTwo_cases target source change with
    ⟨unreached, still⟩ | ⟨root, root', t, s, apart, outer, outer', held, held', run⟩
  · rw [still]
    rcases unreached with same | missing | missing
    · cases reached : g.stream? target <;> simp [leaving, reached, same]
    · simp [leaving, missing]
    · have nowhere := sound.nowhere missing
      cases reached : g.stream? target <;> simp [leaving, reached, modifyOwner_missing nowhere]
  · have found : g.stream? target = some t := by simp [Group.stream?, outer, held]
    obtain ⟨soundT, _⟩ := sound.stream? found
    obtain ⟨soundS, distinct⟩ := sound.stream? (show g.stream? source = some s by simp [Group.stream?, outer', held'])
    rw [run] at refused ⊢
    cases result : change t s with
    | mk outcome s' =>
    rw [result] at refused
    cases outcome with
    | ok pair => cases refused
    | error e =>
      have left := fails t s e s' soundT soundS distinct result
      have changed : root'.modifyOwner source (fun _ => s') = root'.modifyOwner source (leave t) :=
        modifyOwner_congr fun owner own => by rw [left, Option.some.inj (own.symm.trans held')]
      simp only [leaving, found, if_neg apart, changed]
      exact sound.put_modifyOwner (find?_some outer').1 held' (kept t s soundS)

private theorem serve_leaves (sound : g.Sound) {request : Request} (refused : (g.serve request).1 = .refused) :
    (g.serve request).2 = g.leftBy request := by
  cases request with
  | create => cases refused
  | push id token =>
    refine update_leaves (fun s answer s' done => ?_) refused
    obtain ⟨rfl, _⟩ : Answer.placed (s.push token).1 = answer ∧ (s.push token).2 = s' := by simpa using done
    simp
  | insertBefore id before token => exact update_leaves (fun s _ _ => granted_of_map fun _ => by simp) refused
  | insertAfter id behind token => exact update_leaves (fun s _ _ => granted_of_map fun _ => by simp) refused
  | erase id first last => exact update_leaves (fun s _ _ => granted_of_map fun _ => by simp) refused
  | eraseOne id h => exact update_leaves (fun s _ _ => granted_of_map fun _ => by simp) refused
  | attach id h held =>
    simp only [Group.serve, leftBy] at refused ⊢
    by_cases itself : g.rootOf id = held
    · rw [if_pos itself, if_pos itself]
    · rw [if_neg itself] at refused ⊢
      rw [if_neg itself]
      cases found : g.find? held with
      | none => exact (remove_missing found).symm
      | some sub =>
        simp only [found] at refused
        exact update_leaves (fun s _ _ => granted_of_map fun _ => by simp) refused
  | moveRange target before source first last =>
    have left : (g.serve (.moveRange target before source first last)).2 = g.leaving target source fun _ s => s :=
      sound.updateTwo_leaves target source (fun _ _ _ => rfl) (fun t s e s' _ _ _ failed =>
        moveRange_refused failed) refused
    exact left.trans leaving_same
  | moveAll target before source =>
    refine sound.updateTwo_leaves target source (fun t s each => (each.adoptNewlines t).2.2.1) ?_ refused
    exact fun t s e s' _ _ _ failed => moveAll_refused failed
  | exchange target first last source =>
    refine sound.updateTwo_leaves target source (fun t s each => (each.unexchanged t first last).2.2) ?_ refused
    exact fun t s e s' each each' distinct failed => each.exchange_leaves each' distinct failed
  | copyRange id first last =>
    simp only [Group.serve, leftBy] at refused ⊢
    cases found : g.stream? id with
    | none => rfl
    | some s =>
      simp only [found] at refused
      cases done : s.copyRange g.next first last with
      | error e => simp [done]
      | ok result => simp [done] at refused

private theorem leaving_keeps (sound : g.Sound) {target source : ChainId}
    {leave : TokenStream → TokenStream → TokenStream}
    (leaves : ∀ t owner, leave t owner = owner.adoptNewlines t ∨ leave t owner = owner) {s : TokenStream}
    (member : s ∈ g.streams) :
    ∃ s' ∈ (g.leaving target source leave).streams, s'.chain.id = s.chain.id ∧
      ∃ newline, s'.deepEntries = s.deepEntries.map (rebroken (some source) newline) := by
  have same := (map_rebroken_none (some source) s.deepEntries).symm
  unfold leaving
  cases g.stream? target with
  | none => exact ⟨s, member, rfl, none, same⟩
  | some t =>
  by_cases alone : g.rootOf target = g.rootOf source
  · exact ⟨s, by simpa [alone] using member, rfl, none, same⟩
  simp only [if_neg alone]
  refine ⟨_, List.mem_map_of_mem member, id_modifyOwner fun owner held => ?_, ?_⟩
  · rcases leaves t owner with adopted | still
    · rw [adopted]
      exact (((sound.each s member).owner? held).adoptNewlines t).2.2.1
    · rw [still]
  cases held : s.owner? source with
  | none => exact ⟨none, by rw [modifyOwner_absent held, ← same]⟩
  | some owner =>
    rcases leaves t owner with adopted | still
    · have changed : s.modifyOwner source (leave t) = s.modifyOwner source (·.adoptNewlines t) :=
        modifyOwner_congr fun other own => by rw [Option.some.inj (own.symm.trans held), adopted]
      exact ⟨t.firstNewline?, changed ▸
        (sound.each s member).deepEntries_adoptNewlines (sound.distinct_of_mem member) t⟩
    · have changed : s.modifyOwner source (leave t) = s.modifyOwner source fun other => other :=
        modifyOwner_congr fun other own => by rw [Option.some.inj (own.symm.trans held), still]
      exact ⟨none, by rw [changed, modifyOwner_same, ← same]⟩

/-- Every stream that a refused request does not give away has the tokens, with their handles
and in their order, that it had, line breaks of the source of the request apart. -/
theorem leftBy_keeps (sound : g.Sound) (request : Request) {s : TokenStream} (member : s ∈ g.streams)
    (kept : request.given? ≠ some s.chain.id) :
    ∃ s' ∈ (g.leftBy request).streams, s'.chain.id = s.chain.id ∧
      ∃ newline, s'.deepEntries = s.deepEntries.map (rebroken request.emptied? newline) := by
  have same := fun source => (map_rebroken_none source s.deepEntries).symm
  cases request with
  | attach id h held =>
    have among : s ∈ (g.leftBy (.attach id h held)).streams := by
      simp only [leftBy]
      split_ifs
      · exact member
      · exact List.mem_filter.mpr ⟨member, bne_iff_ne.mpr fun equal => kept (congrArg some equal.symm)⟩
    exact ⟨s, among, rfl, none, same _⟩
  | moveAll target before source => exact sound.leaving_keeps (fun _ _ => .inl rfl) member
  | exchange target first last source =>
    refine sound.leaving_keeps (fun t owner => ?_) member
    unfold TokenStream.unexchanged
    split
    · exact .inl rfl
    · exact .inr rfl
  | _ => exact ⟨s, member, rfl, none, same _⟩

/-- What a refused request leaves. A group is as it was before, but that a move of everything
and an exchange may have written the line breaks of the source as those of the target, and
that a stream that could not be attached is lost: the handles, the order and the nesting of the
tokens of all other streams, and the tokens but for those line breaks, are the same. -/
theorem refused_requests (sound : g.Sound) (request : Request) (refused : (g.serve request).1 = .refused) :
    (g.serve request).2 = g.leftBy request ∧
      ∀ s ∈ g.streams, request.given? ≠ some s.chain.id →
        ∃ s' ∈ (g.serve request).2.streams, s'.chain.id = s.chain.id ∧
          ∃ newline, s'.deepEntries = s.deepEntries.map (rebroken request.emptied? newline) := by
  have left := sound.serve_leaves refused
  refine ⟨left, fun s member kept => ?_⟩
  rw [left]
  exact sound.leftBy_keeps request member kept

end Sound

/-- A move of everything to a place that the target does not have: the line break of the source
has become one of the target, its other token stays. -/
theorem refused_requests_breaks :
    let broken (text : String) : Token := { kind := .newLine, literal := .ofWritten text }
    let letter : Token := { kind := .identifier, literal := .ofText "x" }
    let g := ({} : Group).serveAll [.create, .push 0 (broken "\r\n"), .create, .push 1 (broken "\n"), .push 1 letter]
    let request : Request := .moveAll 0 (some ⟨1, 1, 0⟩) 1
    (g.serve request).1 = .refused ∧ (g.serve request).2 = g.leftBy request ∧
      (g.streams.map fun s => s.tokens.map (s.textOf ·)) = [["\r\n"], ["\n", "x"]] ∧
      ((g.leftBy request).streams.map fun s => s.tokens.map (s.textOf ·)) = [["\r\n"], ["\r\n", "x"]] := by
  intro broken letter g request
  have refused : (g.serve request).1 = .refused := by decide +kernel
  exact ⟨refused, ((sound_none.serveAll _).refused_requests request refused).1, by decide +kernel, by decide +kernel⟩

end Group

end YaraRules.TokenStream
