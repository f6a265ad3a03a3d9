import Mathlib.Data.List.Pairwise
import YaraRules.Proofs.StreamGroup
import YaraRules.Proofs.StreamTransfers

/-! Requests to the streams of a group. A request goes to any stream, also to one that
is nested in another, and may carry any handles. Each one keeps the group sound and
says which tokens left their slots and which handles are new. -/

namespace YaraRules.TokenStream

theorem get?_of_contains {s owner : TokenStream} {h : Handle} (held : s.owner? h.chain = some owner)
    (present : owner.chain.contains h = true) : (s.get? h).isSome := by
  obtain ⟨index, found⟩ := Option.isSome_iff_exists.mp present
  have occupied := ((owner.chain.contains_iff_handle h).mp present).1
  have place : index = h.index := congrArg Handle.index (Chain.handle_of_index? found)
  simpa [TokenStream.get?, held, Chain.get?, found, place] using occupied

/-- What can be asked of a stream of a group. The stream may be nested in another one,
and the handles may be of tokens in streams nested in it, or of no token at all. -/
inductive Request where
  | create
  | push (id : ChainId) (token : Token)
  | insertBefore (id : ChainId) (before : Handle) (token : Token)
  | insertAfter (id : ChainId) (behind : Handle) (token : Token)
  | erase (id : ChainId) (first last : Handle)
  | eraseOne (id : ChainId) (h : Handle)
  | attach (id : ChainId) (h : Handle) (held : ChainId)
  | moveRange (target : ChainId) (before : Option Handle) (source : ChainId) (first last : Handle)
  | moveAll (target : ChainId) (before : Option Handle) (source : ChainId)
  | exchange (target : ChainId) (first last : Handle) (source : ChainId)
  | copyRange (id : ChainId) (first last : Handle)

/-- Changes the stream with an identity, which may be nested in the given one. -/
def within (id : ChainId) (change : TokenStream → Except Error (Answer × TokenStream)) (root : TokenStream) :
    Except Error (Answer × TokenStream) :=
  match root.owner? id with
  | none => .error (.invalidHandle default)
  | some owner => (change owner).map fun (answer, changed) => (answer, root.modifyOwner id fun _ => changed)

/-- Changes two streams that are, or are nested in, two others. -/
def withinTwo (target source : ChainId) (change : TokenStream → TokenStream → Moved) (t s : TokenStream) : Moved :=
  match t.owner? target, s.owner? source with
  | some a, some b =>
    match change a b with
    | (.ok (names, a), b) => (.ok (names, t.modifyOwner target fun _ => a), s.modifyOwner source fun _ => b)
    | (.error e, b) => (.error e, s.modifyOwner source fun _ => b)
  | _, _ => (.error (.invalidHandle default), s)

/-- Handles of tokens that an answer is about, as they are from now on. -/
def Answer.issued : Answer → List Handle
  | .placed h => [h]
  | .renamed names => names.pairs.map (·.2)
  | .refused | .done => []

namespace Group

/-- Identity of the outermost stream around another one. -/
def rootOf (g : Group) (id : ChainId) : ChainId :=
  ((g.streams.find? fun s => (s.owner? id).isSome).map (·.chain.id)).getD id

/-- A stream of the group, at any depth. -/
def stream? (g : Group) (id : ChainId) : Option TokenStream := (g.find? (g.rootOf id)).bind (·.owner? id)

def serve (g : Group) : Request → Answer × Group
  | .create => (.done, g.add (.empty g.next))
  | .push id token => g.update (g.rootOf id) (within id fun s => .ok (.placed (s.push token).1, (s.push token).2))
  | .insertBefore id before token => g.update (g.rootOf id) (within id fun s =>
      (s.insertBefore before token).map fun (h, s) => (.placed h, s))
  | .insertAfter id behind token => g.update (g.rootOf id) (within id fun s =>
      (s.insertAfter behind token).map fun (h, s) => (.placed h, s))
  | .erase id first last => g.update (g.rootOf id) (within id fun s => (s.erase first last).map (.done, ·))
  | .eraseOne id h => g.update (g.rootOf id) (within id fun s => (s.eraseOne h).map (.done, ·))
  | .attach id h held =>
    if g.rootOf id = held then (.refused, g) else
    match g.find? held with
    | none => (.refused, g)
    | some sub => (g.remove held).update (g.rootOf id) (within id fun s => (s.attach h sub).map (.done, ·))
  | .moveRange target before source first last => g.updateTwo (g.rootOf target) (g.rootOf source)
      (withinTwo target source fun t s => t.moveRange before s first last)
  | .moveAll target before source => g.updateTwo (g.rootOf target) (g.rootOf source)
      (withinTwo target source fun t s => t.moveAll before s)
  | .exchange target first last source => g.updateTwo (g.rootOf target) (g.rootOf source)
      (withinTwo target source fun t s => t.exchange first last s)
  | .copyRange id first last =>
    match g.stream? id with
    | none => (.refused, g)
    | some s =>
      match s.copyRange g.next first last with
      | .ok (names, copy) => (.renamed names, g.add copy)
      | .error _ => (.refused, g)

/-- The group after a sequence of requests. -/
def serveAll (g : Group) (requests : List Request) : Group := requests.foldl (fun g request => (g.serve request).2) g

/-- Some stream of the group has a token of this handle. -/
def Holds (g : Group) (h : Handle) : Prop := ∃ s ∈ g.streams, (s.get? h).isSome

/-- Handles of the tokens from one to another in a stream of the group. -/
def rangeIn (g : Group) (id : ChainId) (first last : Handle) : List Handle :=
  ((g.stream? id).bind fun s => (s.rangeHandles first last).toOption).getD []

/-- Handles of the tokens that a request erases or moves away, if it is granted. -/
def removed (g : Group) (request : Request) : List Handle :=
  match request, (g.serve request).1 with
  | _, .refused => []
  | .erase id first last, _ => g.rangeIn id first last
  | .eraseOne id h, _ => g.rangeIn id h h
  | .moveRange .., .renamed names | .moveAll .., .renamed names => names.pairs.map (·.1)
  | .exchange target first last _, .renamed names => names.pairs.map (·.1) ++ g.rangeIn target first last
  | _, _ => []

/-- Chain of a stream of the group, at any depth. -/
def chain? (g : Group) (id : ChainId) : Option (Chain Token) := g.streams.findSome? (·.chainOf? id)

def chains (g : Group) : List (Chain Token) := g.streams.flatMap TokenStream.chains

theorem ids_eq (g : Group) : g.ids = g.chains.map (·.id) := by
  rw [ids, chains, List.map_flatMap]
  congr
  funext s
  exact ids_eq_chains s

namespace Sound

variable {g : Group}

theorem chains_nodup (sound : g.Sound) : (g.chains.map (·.id)).Nodup := g.ids_eq ▸ sound.distinct

theorem chain?_eq_some (sound : g.Sound) {id : ChainId} {c : Chain Token} :
    g.chain? id = some c ↔ c ∈ g.chains ∧ c.id = id := by
  have inside : ∀ {d : Chain Token}, g.chain? id = some d → d ∈ g.chains ∧ d.id = id := by
    intro d found
    obtain ⟨s, member, held⟩ := List.exists_of_findSome?_eq_some found
    obtain ⟨among, named⟩ := mem_chains_of_chainOf? held
    exact ⟨List.mem_flatMap.mpr ⟨s, member, among⟩, named⟩
  refine ⟨inside, ?_⟩
  rintro ⟨member, rfl⟩
  obtain ⟨s, among, held⟩ := List.mem_flatMap.mp member
  cases found : g.chain? c.id with
  | none =>
    have missing := List.findSome?_eq_none_iff.mp found s among
    simp [chainOf?_of_mem (sound.distinct_of_mem among) held] at missing
  | some d =>
    obtain ⟨other, same⟩ := inside found
    rw [List.inj_on_of_nodup_map sound.chains_nodup other member same]

theorem holds_iff (sound : g.Sound) {h : Handle} : g.Holds h ↔ ∃ c ∈ g.chains, c.contains h = true := by
  constructor
  · rintro ⟨s, member, found⟩
    rw [get?_eq] at found
    cases held : s.chainOf? h.chain with
    | none => simp [held] at found
    | some c =>
      refine ⟨c, List.mem_flatMap.mpr ⟨s, member, (mem_chains_of_chainOf? held).1⟩, ?_⟩
      cases named : c.index? h with
      | none => simp [held, Chain.get?, named] at found
      | some index => simp [Chain.contains, named]
  · rintro ⟨c, member, held⟩
    obtain ⟨s, among, inside⟩ := List.mem_flatMap.mp member
    refine ⟨s, among, ?_⟩
    have found := chainOf?_of_mem (sound.distinct_of_mem among) inside
    rw [← Chain.id_of_contains held] at found
    obtain ⟨owner, own, rfl⟩ := Option.map_eq_some_iff.mp found
    exact get?_of_contains own held

/-- Different streams of a group have no chain in common. -/
theorem apart (sound : g.Sound) {s t : TokenStream} (one : s ∈ g.streams) (other : t ∈ g.streams)
    (different : s.chain.id ≠ t.chain.id) {c d : Chain Token} (inside : c ∈ s.chains) (inside' : d ∈ t.chains) :
    c.id ≠ d.id := by
  have distinct := sound.distinct
  rw [Group.ids, List.nodup_flatMap] at distinct
  have symmetric : Std.Symm (Function.onFun List.Disjoint TokenStream.ids) :=
    ⟨fun _ _ away _ one other => away other one⟩
  have disjoint := distinct.2.forall one other fun same => different (same ▸ rfl)
  intro same
  refine disjoint (ids_eq_chains s ▸ List.mem_map_of_mem inside) ?_
  rw [ids_eq_chains t]
  exact List.mem_map.mpr ⟨d, inside', same.symm⟩

end Sound

/-- A group after one request: what was removed left its slots, which counted on, no
other token left its slot, and the handles that were issued are new. -/
structure Advances (g after : Group) (issued gone : List Handle) : Prop where
  sound : after.Sound
  next : g.next ≤ after.next
  each : ∀ d ∈ after.chains, (∃ c ∈ g.chains, c.Turned d gone) ∨ g.next ≤ d.id
  held : ∀ h ∈ gone, g.Holds h
  fresh : ∀ h ∈ issued, ¬g.Holds h
  given : ∀ h ∈ issued, after.Holds h

section Advance

variable {g : Group} {issued gone : List Handle}

theorem Advances.refl (sound : g.Sound) : g.Advances g [] [] :=
  ⟨sound, Nat.le_refl _, fun d member => .inl ⟨d, member, .refl d⟩, by simp, by simp, by simp⟩

private theorem Advances.of_turns (sound : g.Sound) {after : Group} (sound' : after.Sound) (next : g.next ≤ after.next)
    (turns : Turns g.chains after.chains issued gone) : g.Advances after issued gone := by
  refine ⟨sound', next, fun d member => .inl (turns.each d member), fun h member => ?_, fun h member held => ?_,
    fun h member => sound'.holds_iff.mpr (turns.given h member)⟩
  · exact sound.holds_iff.mpr (turns.held h member)
  · obtain ⟨c, inside, named, absent⟩ := turns.fresh h member
    obtain ⟨d, among, present⟩ := sound.holds_iff.mp held
    have same : d.id = c.id := (Chain.id_of_contains present).symm.trans named.symm
    rw [List.inj_on_of_nodup_map sound.chains_nodup among inside same, absent] at present
    cases present

theorem Advances.put (sound : g.Sound) {s s' : TokenStream} (found : g.find? s'.chain.id = some s)
    (changed : Changed s s' issued gone) : g.Advances (g.put s') issued gone := by
  obtain ⟨after, here, _⟩ := sound.put found changed.sound changed.counted
  have member := (find?_some found).1
  refine .of_turns sound after (Nat.le_refl _) (changed.turns.frame ?_ ?_ fun d inside => ?_)
  · exact fun c inside => List.mem_flatMap.mpr ⟨s, member, inside⟩
  · exact fun d inside => List.mem_flatMap.mpr ⟨s', (find?_some here).1, inside⟩
  · obtain ⟨t, among, held⟩ := List.mem_flatMap.mp inside
    obtain ⟨old, origin, rfl⟩ := List.mem_map.mp among
    split_ifs at held with same
    · exact .inl held
    · refine .inr ⟨List.mem_flatMap.mpr ⟨old, origin, held⟩, fun c own => ?_⟩
      exact sound.apart member origin (fun equal => same (equal.symm.trans changed.id.symm)) own held

theorem Advances.putTwo (sound : g.Sound) {t t' s s' : TokenStream} (different : t'.chain.id ≠ s'.chain.id)
    (target : g.find? t'.chain.id = some t) (source : g.find? s'.chain.id = some s)
    (transferred : Transferred t s t' s' issued gone) : g.Advances ((g.put t').put s') issued gone := by
  obtain ⟨after, here, there, _⟩ :=
    sound.putTwo different target source transferred.sound transferred.sound' transferred.counted
  have inTarget := (find?_some target).1
  have inSource := (find?_some source).1
  refine .of_turns sound after (Nat.le_refl _)
    (transferred.turns.frame (fun c inside => ?_) (fun d inside => ?_) fun d inside => ?_)
  · rcases List.mem_append.mp inside with early | late
    · exact List.mem_flatMap.mpr ⟨t, inTarget, early⟩
    · exact List.mem_flatMap.mpr ⟨s, inSource, late⟩
  · rcases List.mem_append.mp inside with early | late
    · exact List.mem_flatMap.mpr ⟨t', (find?_some here).1, early⟩
    · exact List.mem_flatMap.mpr ⟨s', (find?_some there).1, late⟩
  · obtain ⟨last, among, held⟩ := List.mem_flatMap.mp inside
    obtain ⟨middle, earlier, rfl⟩ := List.mem_map.mp among
    obtain ⟨old, origin, rfl⟩ := List.mem_map.mp earlier
    by_cases first : old.chain.id = t'.chain.id
    · rw [if_pos first, if_neg different] at held
      exact .inl (by simp [held])
    · rw [if_neg first] at held
      split_ifs at held with second
      · exact .inl (by simp [held])
      · refine .inr ⟨List.mem_flatMap.mpr ⟨old, origin, held⟩, fun c own => ?_⟩
        rcases List.mem_append.mp own with early | late
        · exact sound.apart inTarget origin (fun same => first (same.symm.trans transferred.id.symm)) early held
        · exact sound.apart inSource origin (fun same => second (same.symm.trans transferred.id'.symm)) late held

/-- A new stream, whose tokens get handles that nothing had before. -/
theorem Advances.add (sound : g.Sound) {s : TokenStream} (each : s.Sound) (ids : s.ids = [g.next])
    (own : ∀ h ∈ issued, h ∈ s.view.map (·.1)) : g.Advances (g.add s) issued [] := by
  have after := sound.add each ids
  refine ⟨after, Nat.le_succ _, fun d member => ?_, by simp, fun h member held => ?_, fun h member => ?_⟩
  · obtain ⟨stream, among, inside⟩ := List.mem_flatMap.mp member
    rcases List.mem_append.mp among with old | new
    · exact .inl ⟨d, List.mem_flatMap.mpr ⟨stream, old, inside⟩, .refl d⟩
    · obtain rfl := List.mem_singleton.mp new
      have named : d.id ∈ stream.ids := ids_eq_chains stream ▸ List.mem_map_of_mem inside
      rw [ids, List.mem_singleton] at named
      exact .inr (Nat.le_of_eq named.symm)
  · obtain ⟨c, inside, present⟩ := sound.holds_iff.mp held
    have used : c.id ∈ g.ids := g.ids_eq ▸ List.mem_map_of_mem inside
    obtain ⟨piece, listed, rfl⟩ := List.mem_map.mp (own h member)
    have top : s.chain.id ∈ s.ids := s.id_mem_ids
    have below := sound.fresh _ used
    rw [← Chain.id_of_contains present, each.chain_of_view listed] at below
    rw [ids, List.mem_singleton] at top
    rw [top] at below
    exact Nat.lt_irrefl _ below
  · obtain ⟨d, inside, held⟩ := contains_of_view each (own h member)
    exact after.holds_iff.mpr ⟨d, List.mem_flatMap.mpr ⟨s, by simp [Group.add], inside⟩, held⟩

theorem stream?_eq {id : ChainId} {s : TokenStream} (found : g.stream? id = some s) :
    ∃ root, g.find? (g.rootOf id) = some root ∧ root.owner? id = some s :=
  Option.bind_eq_some_iff.mp found

theorem Sound.stream? (sound : g.Sound) {id : ChainId} {s : TokenStream} (found : g.stream? id = some s) :
    s.Sound ∧ s.ids.Nodup := by
  obtain ⟨root, outer, held⟩ := stream?_eq found
  obtain ⟨each, distinct, _⟩ := sound.held outer
  refine ⟨each.owner? held, ?_⟩
  obtain ⟨front, back, split, _⟩ := chains_modifyOwner held
  rw [ids_eq_chains, split, List.map_append, List.map_append] at distinct
  rw [ids_eq_chains]
  exact (List.nodup_append'.mp (List.nodup_append'.mp distinct).2.1).1

private theorem Sound.within_cases (sound : g.Sound) (id : ChainId)
    (change : TokenStream → Except Error (Answer × TokenStream)) :
    g.update (g.rootOf id) (within id change) = (.refused, g) ∨
      ∃ s answer s', g.stream? id = some s ∧ change s = .ok (answer, s') ∧
        (g.update (g.rootOf id) (within id change)).1 = answer ∧ ∀ issued gone, Changed s s' issued gone →
          g.Advances (g.update (g.rootOf id) (within id change)).2 issued gone := by
  unfold Group.update
  cases outer : g.find? (g.rootOf id) with
  | none => exact .inl rfl
  | some root =>
    obtain ⟨each, distinct, named⟩ := sound.held outer
    cases held : root.owner? id with
    | none => exact .inl (by simp [within, held])
    | some s =>
      cases done : change s with
      | error e => exact .inl (by simp [within, held, done, Except.map])
      | ok result =>
        obtain ⟨answer, s'⟩ := result
        refine .inr ⟨s, answer, s', by simp [Group.stream?, outer, held], done, ?_⟩
        simp only [within, held, done, Except.map]
        refine ⟨trivial, fun issued gone changed => ?_⟩
        have whole := changed.within each distinct held
        exact .put sound (by rw [whole.id, named]; exact outer) whole

theorem Sound.eq_of_top (sound : g.Sound) {s t : TokenStream} (one : s ∈ g.streams) (other : t ∈ g.streams)
    (same : s.chain.id = t.chain.id) : s = t :=
  List.inj_on_of_nodup_map sound.tops_nodup one other same

private theorem Sound.put_same (sound : g.Sound) {s : TokenStream} (member : s ∈ g.streams) : g.put s = g := by
  have each : ∀ old ∈ g.streams, (if old.chain.id = s.chain.id then s else old) = old := fun old among => by
    split_ifs with same
    · exact (sound.eq_of_top among member same).symm
    · rfl
  unfold Group.put
  rw [List.map_congr_left each, List.map_id']

/-- A request to two streams reaches both of them, or it is refused and changes nothing. -/
theorem Sound.updateTwo_cases (sound : g.Sound) (target source : ChainId) (change : TokenStream → TokenStream → Moved) :
    (g.rootOf target = g.rootOf source ∨ g.stream? target = none ∨ g.stream? source = none) ∧
        g.updateTwo (g.rootOf target) (g.rootOf source) (withinTwo target source change) = (.refused, g) ∨
      ∃ root root' t s, g.rootOf target ≠ g.rootOf source ∧ g.find? (g.rootOf target) = some root ∧
        g.find? (g.rootOf source) = some root' ∧ root.owner? target = some t ∧ root'.owner? source = some s ∧
        g.updateTwo (g.rootOf target) (g.rootOf source) (withinTwo target source change) =
          match change t s with
          | (.ok (names, t'), s') =>
            (.renamed names, (g.put (root.modifyOwner target fun _ => t')).put (root'.modifyOwner source fun _ => s'))
          | (.error _, s') => (.refused, g.put (root'.modifyOwner source fun _ => s')) := by
  unfold Group.updateTwo
  by_cases same : g.rootOf target = g.rootOf source
  · exact .inl ⟨.inl same, if_pos same⟩
  rw [if_neg same]
  cases outer : g.find? (g.rootOf target) with
  | none => exact .inl ⟨.inr (.inl (by simp [Group.stream?, outer])), rfl⟩
  | some root =>
  cases outer' : g.find? (g.rootOf source) with
  | none => exact .inl ⟨.inr (.inr (by simp [Group.stream?, outer'])), rfl⟩
  | some root' =>
  have kept := sound.put_same (find?_some outer').1
  cases held : root.owner? target with
  | none => exact .inl ⟨.inr (.inl (by simp [Group.stream?, outer, held])), by simp [withinTwo, held, kept]⟩
  | some t =>
  cases held' : root'.owner? source with
  | none => exact .inl ⟨.inr (.inr (by simp [Group.stream?, outer', held'])), by simp [withinTwo, held, held', kept]⟩
  | some s =>
    refine .inr ⟨root, root', t, s, same, rfl, rfl, held, held', ?_⟩
    rcases result : change t s with ⟨_ | ⟨names, t'⟩, s'⟩ <;> simp [withinTwo, held, held', result]

/-- A request to two streams is refused, or one of them hands tokens to the other. -/
theorem Sound.withinTwo_cases (sound : g.Sound) (target source : ChainId) (change : TokenStream → TokenStream → Moved)
    (bad : ∀ t s e s', t.Sound → s.Sound → s.ids.Nodup → change t s = (.error e, s') → Untouched s s') :
    ((g.updateTwo (g.rootOf target) (g.rootOf source) (withinTwo target source change)).1 = .refused ∧
        g.Advances (g.updateTwo (g.rootOf target) (g.rootOf source) (withinTwo target source change)).2 [] []) ∨
      ∃ t s names t' s', g.stream? target = some t ∧ g.stream? source = some s ∧ (t.ids ++ s.ids).Nodup ∧
        change t s = (.ok (names, t'), s') ∧
        (g.updateTwo (g.rootOf target) (g.rootOf source) (withinTwo target source change)).1 = .renamed names ∧
        ∀ issued gone, Transferred t s t' s' issued gone →
          g.Advances (g.updateTwo (g.rootOf target) (g.rootOf source) (withinTwo target source change)).2 issued
            gone := by
  rcases sound.updateTwo_cases target source change with ⟨_, still⟩
    | ⟨root, root', t, s, same, outer, outer', held, held', run⟩
  · rw [still]
    exact .inl ⟨rfl, .refl sound⟩
  obtain ⟨each, distinct, named⟩ := sound.held outer
  obtain ⟨each', distinct', named'⟩ := sound.held outer'
  have found : g.stream? target = some t := by simp [Group.stream?, outer, held]
  have found' : g.stream? source = some s := by simp [Group.stream?, outer', held']
  obtain ⟨soundT, _⟩ := sound.stream? found
  obtain ⟨soundS, distinctS⟩ := sound.stream? found'
  rw [run]
  cases result : change t s with
  | mk outcome s' =>
  cases outcome with
  | error e =>
    obtain ⟨soundS', ids, steady⟩ := bad t s e s' soundT soundS distinctS result
    have changed : Changed s s' [] [] :=
      ⟨soundS', steady.top.id, fun id => Nat.le_of_eq (by rw [ids]), steady.turns⟩
    have whole := changed.within each' distinct' held'
    exact .inl ⟨rfl, .put sound (by rw [whole.id, named']; exact outer') whole⟩
  | ok pair =>
    obtain ⟨names, t'⟩ := pair
    have pairs := sound.distinct_pair same outer outer'
    refine .inr ⟨t, s, names, t', s', found, found', distinct_owners pairs held held', result, rfl, ?_⟩
    intro issued gone transferred
    have whole := transferred.within each each' pairs held held'
    exact .putTwo sound (by rw [whole.id, whole.id', named, named']; exact same)
      (by rw [whole.id, named]; exact outer) (by rw [whole.id', named']; exact outer') whole

private theorem Advances.of_subset (sound : g.Sound) {after : Group} (sound' : after.Sound) (next : g.next ≤ after.next)
    (inside : after.chains ⊆ g.chains) : g.Advances after [] [] :=
  .of_turns sound sound' next ⟨fun d member => ⟨d, inside member, .refl d⟩, by simp, by simp, by simp⟩

private theorem Sound.serve_attach (sound : g.Sound) (id : ChainId) (h : Handle) (held : ChainId) :
    g.Advances (g.serve (.attach id h held)).2 [] [] ∧ (g.serve (.attach id h held)).1.issued = [] := by
  simp only [Group.serve]
  split_ifs with same
  · exact ⟨.refl sound, rfl⟩
  cases found : g.find? held with
  | none => exact ⟨.refl sound, rfl⟩
  | some sub =>
    have counted := count_remove sound.tops_nodup found
    have member := (find?_some found).1
    have left : (g.remove held).Sound :=
      sound.of_count (fun s member => sound.each s (List.mem_filter.mp member).1) (fun id => by
        have total := counted id
        omega) rfl
    have fewer : (g.remove held).chains ⊆ g.chains := fun d inside => by
      obtain ⟨s, among, deep⟩ := List.mem_flatMap.mp inside
      exact List.mem_flatMap.mpr ⟨s, (List.mem_filter.mp among).1, deep⟩
    have lost : g.Advances (g.remove held) [] [] := .of_subset sound left (Nat.le_refl _) fewer
    unfold Group.update
    cases outer : (g.remove held).find? (g.rootOf id) with
    | none => exact ⟨lost, rfl⟩
    | some root =>
    obtain ⟨each, distinct, named⟩ := left.held outer
    cases owned : root.owner? id with
    | none => exact ⟨by simpa [within, owned] using lost, by simp [within, owned, Answer.issued]⟩
    | some s =>
    cases done : s.attach h sub with
    | error e =>
      exact ⟨by simpa [within, owned, done, Except.map] using lost,
        by simp [within, owned, done, Except.map, Answer.issued]⟩
    | ok s' =>
      obtain ⟨sound', bound, id', _⟩ := (each.owner? owned).attach (sound.held found).1 done
      have rooted : (root.modifyOwner id fun _ => s').chain.id = root.chain.id := id_modifyOwner fun other same => by
        obtain rfl : other = s := Option.some.inj (same.symm.trans owned)
        exact id'
      have outer' : (g.remove held).find? (root.modifyOwner id fun _ => s').chain.id = some root := by
        rw [rooted, named]
        exact outer
      simp only [within, owned, done, Except.map]
      refine ⟨.of_subset sound (sound.of_count (fun other inside => ?_) (fun other => ?_) rfl) (Nat.le_refl _) ?_, rfl⟩
      · rcases mem_put inside with rfl | older
        · exact each.modifyOwner fun _ _ => sound'
        · exact left.each other older
      · have total := count_put left.tops_nodup outer' other
        have changed := count_modifyOwner owned (fun _ => s') other
        have attached := bound other
        have removed := counted other
        omega
      · intro d inside
        obtain ⟨stream, among, deep⟩ := List.mem_flatMap.mp inside
        rcases mem_put among with rfl | older
        · obtain ⟨front, back, split, replaced⟩ := chains_modifyOwner owned
          have inRoot : root.chains ⊆ g.chains := fun c listed =>
            fewer (List.mem_flatMap.mpr ⟨root, (find?_some outer).1, listed⟩)
          rw [replaced] at deep
          rcases List.mem_append.mp deep with early | others
          · exact inRoot (by simp [split, early])
          · rcases List.mem_append.mp others with here | late
            · rcases chains_attach done d here with old | new
              · exact inRoot (by simp [split, old])
              · exact List.mem_flatMap.mpr ⟨sub, member, new⟩
            · exact inRoot (by simp [split, late])
        · exact fewer (List.mem_flatMap.mpr ⟨stream, older, deep⟩)

private theorem Sound.serve_copyRange (sound : g.Sound) (id : ChainId) (first last : Handle) :
    g.Advances (g.serve (.copyRange id first last)).2 (g.serve (.copyRange id first last)).1.issued [] := by
  simp only [Group.serve]
  cases found : g.stream? id with
  | none => exact .refl sound
  | some s =>
    cases done : s.copyRange g.next first last with
    | error e => simpa [done, Answer.issued] using Advances.refl sound
    | ok result =>
      obtain ⟨names, copy⟩ := result
      obtain ⟨each, _⟩ := sound.stream? found
      cases held : s.owner? first.chain with
      | none =>
        have missing : s.chainOf? first.chain = none := by simp [chainOf?, held]
        simp [TokenStream.copyRange, range_eq, missing, bind, Except.bind] at done
      | some owner =>
        have own := (id_of_owner? held).symm
        have same : s.range first last = owner.range first last := by
          have outer : s.chainOf? first.chain = some owner.chain := by simp [chainOf?, held]
          have inner : owner.chainOf? first.chain = some owner.chain := id_of_owner? held ▸ owner.chainOf?_self
          rw [range_eq, range_eq, outer, inner]
        have inside : owner.copyRange g.next first last = .ok (names, copy) := by
          rw [← done]
          simp only [TokenStream.copyRange, same]
        obtain ⟨sound', ids, _, _, middle, _, _, _, pairs, contents⟩ := (each.owner? held).copyRange own inside
        have lengths : copy.view.length = middle.length := by simpa using congrArg List.length contents
        simp only [done, Answer.issued]
        refine .add sound sound' ids fun h member => ?_
        rwa [pairs, renamed, List.map_snd_zip (by simp [lengths])] at member

private theorem removed_refused {request : Request} (refused : (g.serve request).1 = .refused) :
    g.removed request = [] := by
  unfold removed
  rw [refused]

/-- Requests to one stream, with what they issue and remove when they are granted. -/
private theorem Sound.serve_one (sound : g.Sound) {request : Request} {id : ChainId}
    {change : TokenStream → Except Error (Answer × TokenStream)}
    (served : g.serve request = g.update (g.rootOf id) (within id change))
    (granted : ∀ s answer s', g.stream? id = some s → s.Sound → s.ids.Nodup → change s = .ok (answer, s') →
      (g.serve request).1 = answer → Changed s s' answer.issued (g.removed request)) :
    g.Advances (g.serve request).2 (g.serve request).1.issued (g.removed request) := by
  rcases sound.within_cases id change with refused | ⟨s, answer, s', found, done, answered, advance⟩
  · rw [refused] at served
    rw [removed_refused (by rw [served]), served]
    exact .refl sound
  · rw [← served] at answered advance
    obtain ⟨each, distinct⟩ := sound.stream? found
    rw [answered]
    exact advance _ _ (granted s answer s' found each distinct done answered)

private theorem Sound.serve_two (sound : g.Sound) {request : Request} {target source : ChainId}
    {change : TokenStream → TokenStream → Moved}
    (served : g.serve request = g.updateTwo (g.rootOf target) (g.rootOf source) (withinTwo target source change))
    (bad : ∀ t s e s', t.Sound → s.Sound → s.ids.Nodup → change t s = (.error e, s') → Untouched s s')
    (granted : ∀ t s names t' s', g.stream? target = some t → t.Sound → s.Sound → (t.ids ++ s.ids).Nodup →
      change t s = (.ok (names, t'), s') → (g.serve request).1 = .renamed names →
      Transferred t s t' s' (names.pairs.map (·.2)) (g.removed request)) :
    g.Advances (g.serve request).2 (g.serve request).1.issued (g.removed request) := by
  rcases sound.withinTwo_cases target source change bad with
    ⟨refused, advance⟩ | ⟨t, s, names, t', s', found, found', distinct, done, answered, advance⟩
  · rw [← served] at refused advance
    rw [removed_refused refused, refused]
    exact advance
  · rw [← served] at answered advance
    rw [answered]
    exact advance _ _ (granted t s names t' s' found (sound.stream? found).1 (sound.stream? found').1 distinct done
      answered)

private theorem rangeIn_eq {id : ChainId} {s : TokenStream} {first last : Handle} {handles : List Handle}
    (found : g.stream? id = some s) (ranged : s.rangeHandles first last = .ok handles) :
    g.rangeIn id first last = handles := by
  simp [rangeIn, found, ranged, Except.toOption]

private theorem ok_of_map {α β : Type} {result : Except Error α} {f : α → β} {b : β} (done : result.map f = .ok b) :
    ∃ a, result = .ok a ∧ f a = b := by
  cases result with
  | error e => cases done
  | ok a => exact ⟨a, rfl, Except.ok.inj done⟩

theorem Sound.serve (sound : g.Sound) (request : Request) :
    g.Advances (g.serve request).2 (g.serve request).1.issued (g.removed request) := by
  cases request with
  | create => exact .add sound (sound_empty g.next) rfl (by simp [Group.serve, Answer.issued])
  | push id token =>
    refine sound.serve_one rfl fun s answer s' _ each _ done answered => ?_
    obtain ⟨rfl, rfl⟩ : Answer.placed (s.push token).1 = answer ∧ (s.push token).2 = s' := by simpa using done
    simpa [removed, answered, Answer.issued] using each.push_changed token
  | insertBefore id before token =>
    refine sound.serve_one rfl fun s answer s' _ each distinct done answered => ?_
    obtain ⟨⟨h, after⟩, inserted, same⟩ := ok_of_map done
    obtain ⟨rfl, rfl⟩ := Prod.mk.inj same
    simpa [removed, answered, Answer.issued] using each.insertBefore_changed distinct inserted
  | insertAfter id behind token =>
    refine sound.serve_one rfl fun s answer s' _ each distinct done answered => ?_
    obtain ⟨⟨h, after⟩, inserted, same⟩ := ok_of_map done
    obtain ⟨rfl, rfl⟩ := Prod.mk.inj same
    simpa [removed, answered, Answer.issued] using each.insertAfter_changed distinct inserted
  | erase id first last =>
    refine sound.serve_one rfl fun s answer s' found each distinct done answered => ?_
    obtain ⟨after, erased, same⟩ := ok_of_map done
    obtain ⟨rfl, rfl⟩ := Prod.mk.inj same
    obtain ⟨owner, handles, held, ranged, changed⟩ := each.erase_changed distinct erased
    have whole := rangeIn_eq found ((rangeHandles_owner held).trans ranged)
    simpa [removed, answered, Answer.issued, whole] using changed
  | eraseOne id h =>
    refine sound.serve_one rfl fun s answer s' found each distinct done answered => ?_
    obtain ⟨after, erased, same⟩ := ok_of_map done
    obtain ⟨rfl, rfl⟩ := Prod.mk.inj same
    obtain ⟨owner, handles, held, ranged, changed⟩ := each.erase_changed distinct erased
    have whole := rangeIn_eq found ((rangeHandles_owner held).trans ranged)
    simpa [removed, answered, Answer.issued, whole] using changed
  | attach id h held =>
    obtain ⟨advance, issued⟩ := sound.serve_attach id h held
    have nothing : g.removed (.attach id h held) = [] := by
      unfold removed
      cases (g.serve (.attach id h held)).1 <;> rfl
    rw [issued, nothing]
    exact advance
  | moveRange target before source first last =>
    refine sound.serve_two rfl (fun t s e s' _ each _ failed => moveRange_refused failed ▸ each.untouched)
      fun t s names t' s' _ each each' distinct done answered => ?_
    simpa [removed, answered] using each.moveRange_transferred each' distinct done
  | moveAll target before source =>
    refine sound.serve_two rfl (fun t s e s' _ each _ failed => moveAll_refused failed ▸ each.untouched_newlines t)
      fun t s names t' s' _ each each' distinct done answered => ?_
    simpa [removed, answered] using each.moveAll_transferred each' distinct done
  | exchange target first last source =>
    refine sound.serve_two rfl (fun t s e s' each each' distinct failed =>
      each.exchange_untouched each' distinct failed)
      fun t s names t' s' found each each' distinct done answered => ?_
    obtain ⟨handles, ranged, transferred⟩ := each.exchange_transferred each' distinct done
    simpa [removed, answered, rangeIn_eq found ranged] using transferred
  | copyRange id first last =>
    have nothing : g.removed (.copyRange id first last) = [] := by
      unfold removed
      cases (g.serve (.copyRange id first last)).1 <;> rfl
    rw [nothing]
    exact sound.serve_copyRange id first last

end Advance

end Group

end YaraRules.TokenStream
