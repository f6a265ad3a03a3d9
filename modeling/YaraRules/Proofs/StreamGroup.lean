import YaraRules.Proofs.StreamInsertions

/-! Groups of streams. Streams that exist together have distinct identities and hand
tokens to each other; whatever is done to them, in whatever order, all of them stay
sound, and every operation that succeeds is the list operation that it is named for. -/

namespace YaraRules.TokenStream

/-- Streams that exist together. A new stream gets the next identity. -/
structure Group where
  next : ChainId := 0
  streams : List TokenStream := []

/-- What can be done to a group. A handle addresses the stream that holds its token. -/
inductive Operation where
  | create
  | push (id : ChainId) (token : Token)
  | insertBefore (before : Handle) (token : Token)
  | insertAfter (behind : Handle) (token : Token)
  | erase (first last : Handle)
  | eraseOne (h : Handle)
  | attach (h : Handle) (held : ChainId)
  | moveRange (target : ChainId) (before : Option Handle) (first last : Handle)
  | moveAll (target : ChainId) (before : Option Handle) (source : ChainId)
  | exchange (first last : Handle) (source : ChainId)
  | copyRange (first last : Handle)

inductive Answer where
  | refused
  | done
  | placed (h : Handle)
  | renamed (names : Renaming)

instance (answer : Answer) : Decidable (answer = .refused) :=
  match answer with
  | .refused => isTrue rfl
  | .done | .placed _ | .renamed _ => isFalse nofun

namespace Group

def find? (g : Group) (id : ChainId) : Option TokenStream := g.streams.find? (·.chain.id == id)

/-- Puts a stream in the place of the one with its identity. -/
def put (g : Group) (s : TokenStream) : Group :=
  { g with streams := g.streams.map fun old => if old.chain.id = s.chain.id then s else old }

def remove (g : Group) (id : ChainId) : Group := { g with streams := g.streams.filter (·.chain.id != id) }

def add (g : Group) (s : TokenStream) : Group := ⟨g.next + 1, g.streams ++ [s]⟩

/-- Changes the stream that is addressed, if the change succeeds. -/
def update (g : Group) (id : ChainId) (change : TokenStream → Except Error (Answer × TokenStream)) : Answer × Group :=
  match g.find? id with
  | none => (.refused, g)
  | some s =>
    match change s with
    | .ok (answer, s) => (answer, g.put s)
    | .error _ => (.refused, g)

/-- Changes two streams at once. The source of a failed move is kept as that left it. -/
def updateTwo (g : Group) (target source : ChainId) (change : TokenStream → TokenStream → Moved) : Answer × Group :=
  if target = source then (.refused, g) else
  match g.find? target, g.find? source with
  | some t, some s =>
    match change t s with
    | (.ok (names, t), s) => (.renamed names, (g.put t).put s)
    | (.error _, s) => (.refused, g.put s)
  | _, _ => (.refused, g)

def step (g : Group) : Operation → Answer × Group
  | .create => (.done, g.add (.empty g.next))
  | .push id token => g.update id fun s => .ok (.placed (s.push token).1, (s.push token).2)
  | .insertBefore before token =>
    g.update before.chain fun s => (s.insertBefore before token).map fun (h, s) => (.placed h, s)
  | .insertAfter behind token =>
    g.update behind.chain fun s => (s.insertAfter behind token).map fun (h, s) => (.placed h, s)
  | .erase first last => g.update first.chain fun s => (s.erase first last).map (.done, ·)
  | .eraseOne h => g.update h.chain fun s => (s.eraseOne h).map (.done, ·)
  | .attach h held =>
    if h.chain = held then (.refused, g) else
    match g.find? held with
    | none => (.refused, g)
    -- The stream is given away, also if it cannot be attached.
    | some sub => (g.remove held).update h.chain fun s => (s.attach h sub).map (.done, ·)
  | .moveRange target before first last =>
    g.updateTwo target first.chain fun t s => t.moveRange before s first last
  | .moveAll target before source => g.updateTwo target source fun t s => t.moveAll before s
  | .exchange first last source => g.updateTwo first.chain source fun t s => t.exchange first last s
  | .copyRange first last =>
    match g.find? first.chain with
    | none => (.refused, g)
    | some s =>
      match s.copyRange g.next first last with
      | .ok (names, copy) => (.renamed names, g.add copy)
      | .error _ => (.refused, g)

/-- The group after a sequence of operations, starting with no stream. -/
def run (history : List Operation) : Group := history.foldl (fun g operation => (g.step operation).2) {}

def ids (g : Group) : List ChainId := g.streams.flatMap TokenStream.ids

/-- Every stream is sound, and no identity is used twice or given out again. -/
structure Sound (g : Group) : Prop where
  each : ∀ s ∈ g.streams, s.Sound
  distinct : g.ids.Nodup
  fresh : ∀ id ∈ g.ids, id < g.next

/-- Identities of the streams that are not nested in others. -/
def tops (g : Group) : List ChainId := g.streams.map (·.chain.id)

theorem find?_some {g : Group} {id : ChainId} {s : TokenStream} (found : g.find? id = some s) :
    s ∈ g.streams ∧ s.chain.id = id :=
  ⟨List.mem_of_find?_eq_some found, by simpa using List.find?_some found⟩

private theorem tops_put (g : Group) (s : TokenStream) : (g.put s).tops = g.tops := by
  simp only [tops, put, List.map_map]
  refine List.map_congr_left fun old _ => ?_
  by_cases same : old.chain.id = s.chain.id <;> simp [same]

private theorem find?_put (g : Group) (s : TokenStream) (id : ChainId) :
    (g.put s).find? id = if id = s.chain.id then (g.find? id).map fun _ => s else g.find? id := by
  simp only [find?, put]
  induction g.streams with
  | nil => simp
  | cons old rest ih =>
    by_cases same : old.chain.id = s.chain.id <;> by_cases here : old.chain.id = id <;>
      by_cases wanted : id = s.chain.id <;> simp_all

private theorem find?_remove (g : Group) (gone id : ChainId) :
    (g.remove gone).find? id = if id = gone then none else g.find? id := by
  simp only [find?, remove]
  induction g.streams with
  | nil => simp
  | cons old rest ih =>
    by_cases same : old.chain.id = gone <;> by_cases here : old.chain.id = id <;>
      by_cases wanted : id = gone <;> simp_all

private theorem find?_add (g : Group) (s : TokenStream) (id : ChainId) :
    (g.add s).find? id = (g.find? id).or (if s.chain.id = id then some s else none) := by
  simp only [find?, add, List.find?_append]
  by_cases same : s.chain.id = id <;> simp [same]

private theorem split_find? {g : Group} (nodup : g.tops.Nodup) {id : ChainId} {s : TokenStream}
    (found : g.find? id = some s) :
    ∃ front back, g.streams = front ++ s :: back ∧ ∀ other ∈ front ++ back, other.chain.id ≠ id := by
  obtain ⟨member, rfl⟩ := find?_some found
  obtain ⟨front, back, split⟩ := List.append_of_mem member
  refine ⟨front, back, split, fun other inside same => ?_⟩
  rw [tops, split, List.map_append, List.map_cons, List.nodup_middle, ← List.map_append] at nodup
  exact (List.nodup_cons.mp nodup).1 (List.mem_map.mpr ⟨other, inside, same⟩)

theorem count_put {g : Group} (nodup : g.tops.Nodup) {s s' : TokenStream} (found : g.find? s'.chain.id = some s)
    (id : ChainId) : (g.put s').ids.count id + s.ids.count id = g.ids.count id + s'.ids.count id := by
  obtain ⟨front, back, split, others⟩ := split_find? nodup found
  have same : s.chain.id = s'.chain.id := (find?_some found).2
  have kept : ∀ part : List TokenStream, (∀ other ∈ part, other ∈ front ++ back) →
      (part.map fun old => if old.chain.id = s'.chain.id then s' else old) = part := by
    intro part inside
    exact (List.map_congr_left fun other member => if_neg (others other (inside other member))).trans (List.map_id part)
  have put_eq : (g.put s').streams = front ++ s' :: back := by
    rw [put, split, List.map_append, List.map_cons, kept front (by simp_all), kept back (by simp_all), if_pos same]
  simp only [ids, put_eq, split, List.flatMap_append, List.flatMap_cons, List.count_append]
  omega

theorem count_remove {g : Group} (nodup : g.tops.Nodup) {gone : ChainId} {s : TokenStream}
    (found : g.find? gone = some s) (id : ChainId) :
    (g.remove gone).ids.count id + s.ids.count id = g.ids.count id := by
  obtain ⟨front, back, split, others⟩ := split_find? nodup found
  have kept : ∀ part : List TokenStream, (∀ other ∈ part, other ∈ front ++ back) →
      part.filter (·.chain.id != gone) = part := fun part inside =>
    List.filter_eq_self.mpr fun other member => by simpa using others other (inside other member)
  have left : (g.remove gone).streams = front ++ back := by
    have same : s.chain.id = gone := (find?_some found).2
    simp [remove, split, List.filter_append, kept front (by simp_all), kept back (by simp_all), same]
  simp only [ids, left, split, List.flatMap_append, List.flatMap_cons, List.count_append]
  omega

namespace Sound

variable {g : Group}

theorem tops_nodup (sound : g.Sound) : g.tops.Nodup := by
  have distinct := sound.distinct
  unfold Group.ids at distinct
  unfold tops
  generalize g.streams = streams at distinct
  induction streams with
  | nil => exact List.nodup_nil
  | cons s rest ih =>
    rw [List.flatMap_cons] at distinct
    obtain ⟨_, others, apart⟩ := List.nodup_append'.mp distinct
    refine List.nodup_cons.mpr ⟨fun member => ?_, ih others⟩
    obtain ⟨other, inside, same⟩ := List.mem_map.mp member
    have named : other.chain.id = s.chain.id := same
    exact apart s.id_mem_ids (List.mem_flatMap.mpr ⟨other, inside, named ▸ other.id_mem_ids⟩)

/-- Identities may be given up or pass from stream to stream. -/
theorem of_count (sound : g.Sound) {after : Group} (each : ∀ s ∈ after.streams, s.Sound)
    (counted : ∀ id, after.ids.count id ≤ g.ids.count id) (next : after.next = g.next) : after.Sound := by
  refine ⟨each, List.nodup_iff_count_le_one.mpr fun id => ?_, fun id member => ?_⟩
  · exact Nat.le_trans (counted id) (List.nodup_iff_count_le_one.mp sound.distinct id)
  · rw [next]
    refine sound.fresh id (List.count_pos_iff.mp ?_)
    exact Nat.lt_of_lt_of_le (List.count_pos_iff.mpr member) (counted id)

theorem distinct_of_mem (sound : g.Sound) {s : TokenStream} (member : s ∈ g.streams) : s.ids.Nodup := by
  refine List.nodup_iff_count_le_one.mpr fun id => Nat.le_trans ?_ (List.nodup_iff_count_le_one.mp sound.distinct id)
  obtain ⟨front, back, split⟩ := List.append_of_mem member
  simp only [Group.ids, split, List.flatMap_append, List.flatMap_cons, List.count_append]
  omega

theorem add (sound : g.Sound) {s : TokenStream} (each : s.Sound) (ids : s.ids = [g.next]) : (g.add s).Sound := by
  have all : (g.add s).ids = g.ids ++ [g.next] := by simp [Group.ids, Group.add, ids]
  refine ⟨fun other member => ?_, ?_, fun id member => ?_⟩
  · rcases List.mem_append.mp member with old | new
    · exact sound.each other old
    · exact List.mem_singleton.mp new ▸ each
  · rw [all]
    refine List.nodup_append'.mpr ⟨sound.distinct, by simp, ?_⟩
    simpa using fun member => Nat.lt_irrefl _ (sound.fresh _ member)
  · rw [all] at member
    rcases List.mem_append.mp member with old | new
    · exact Nat.lt_succ_of_lt (sound.fresh id old)
    · rw [List.mem_singleton.mp new]
      exact Nat.lt_succ_self _

end Sound

theorem mem_put {g : Group} {s other : TokenStream} (member : other ∈ (g.put s).streams) :
    other = s ∨ other ∈ g.streams := by
  obtain ⟨old, inside, rfl⟩ := List.mem_map.mp member
  split_ifs
  · exact .inl rfl
  · exact .inr inside

/-- All streams but those named are as they were. -/
def Keeps (g after : Group) (changed : List ChainId) : Prop :=
  ∀ id, id ∉ changed → after.find? id = g.find? id

theorem Sound.put {g : Group} (sound : g.Sound) {s s' : TokenStream} (found : g.find? s'.chain.id = some s)
    (each : s'.Sound) (counted : ∀ id, s'.ids.count id ≤ s.ids.count id) :
    (g.put s').Sound ∧ (g.put s').find? s'.chain.id = some s' ∧ g.Keeps (g.put s') [s'.chain.id] := by
  refine ⟨sound.of_count (fun other member => ?_) (fun id => ?_) rfl, ?_, fun id outside => ?_⟩
  · rcases mem_put member with rfl | old
    · exact each
    · exact sound.each other old
  · have total := count_put sound.tops_nodup found id
    have bound := counted id
    omega
  · simp [find?_put, found]
  · have apart : id ≠ s'.chain.id := by simpa using outside
    simp [find?_put, apart]

theorem Sound.putTwo {g : Group} (sound : g.Sound) {t t' s s' : TokenStream} (apart : t'.chain.id ≠ s'.chain.id)
    (target : g.find? t'.chain.id = some t) (source : g.find? s'.chain.id = some s) (each : t'.Sound) (each' : s'.Sound)
    (counted : ∀ id, t'.ids.count id + s'.ids.count id ≤ t.ids.count id + s.ids.count id) :
    ((g.put t').put s').Sound ∧ ((g.put t').put s').find? t'.chain.id = some t' ∧
      ((g.put t').put s').find? s'.chain.id = some s' ∧
      g.Keeps ((g.put t').put s') [t'.chain.id, s'.chain.id] := by
  have source' : (g.put t').find? s'.chain.id = some s := by simp [find?_put, Ne.symm apart, source]
  refine ⟨sound.of_count (fun other member => ?_) (fun id => ?_) rfl, ?_, ?_, fun id outside => ?_⟩
  · rcases mem_put member with rfl | old
    · exact each'
    · rcases mem_put old with rfl | older
      · exact each
      · exact sound.each other older
  · have first := count_put sound.tops_nodup target id
    have second := count_put ((tops_put g t').symm ▸ sound.tops_nodup) source' id
    have bound := counted id
    omega
  · simp [find?_put, apart, target]
  · simp [find?_put, Ne.symm apart, source]
  · obtain ⟨one, other⟩ : id ≠ t'.chain.id ∧ id ≠ s'.chain.id := by simpa using outside
    simp [find?_put, one, other]

/-- What an operation that succeeds does, as an operation on lists of pieces. -/
def Acts (g : Group) (answer : Answer) (after : Group) : Operation → Prop
  | .create =>
    ∃ s, g.find? g.next = none ∧ after.find? g.next = some s ∧ s.view = [] ∧ g.Keeps after [g.next]
  | .push id token =>
    ∃ s s' new, answer = .placed new ∧ g.find? id = some s ∧ after.find? id = some s' ∧
      s'.view = s.view ++ [(new, token, none)] ∧ g.Keeps after [id]
  | .insertBefore before token =>
    ∃ s s' new front piece back, answer = .placed new ∧ g.find? before.chain = some s ∧
      after.find? before.chain = some s' ∧ s.view = front ++ piece :: back ∧ piece.1 = before ∧
      s'.view = front ++ (new, token, none) :: piece :: back ∧ g.Keeps after [before.chain]
  | .insertAfter behind token =>
    ∃ s s' new front piece back, answer = .placed new ∧ g.find? behind.chain = some s ∧
      after.find? behind.chain = some s' ∧ s.view = front ++ piece :: back ∧ piece.1 = behind ∧
      s'.view = front ++ piece :: (new, token, none) :: back ∧ g.Keeps after [behind.chain]
  | .erase first last =>
    ∃ s s', g.find? first.chain = some s ∧ after.find? first.chain = some s' ∧ Erased s first last s' ∧
      g.Keeps after [first.chain]
  | .eraseOne h =>
    ∃ s s', g.find? h.chain = some s ∧ after.find? h.chain = some s' ∧ Erased s h h s' ∧ g.Keeps after [h.chain]
  | .attach h held =>
    ∃ s s' sub front token old back, g.find? h.chain = some s ∧ g.find? held = some sub ∧
      after.find? h.chain = some s' ∧ after.find? held = none ∧ s.view = front ++ (h, token, old) :: back ∧
      s'.view = front ++ (h, token, some sub) :: back ∧ g.Keeps after [h.chain, held]
  | .moveRange target before first last =>
    ∃ t s t' s' names, answer = .renamed names ∧ g.find? target = some t ∧ g.find? first.chain = some s ∧
      after.find? target = some t' ∧ after.find? first.chain = some s' ∧
      MovedInto t before s first last names t' s' ∧ g.Keeps after [target, first.chain]
  | .moveAll target before source =>
    ∃ t s t' s' names, answer = .renamed names ∧ g.find? target = some t ∧ g.find? source = some s ∧
      after.find? target = some t' ∧ after.find? source = some s' ∧
      MovedAll t before s names t' s' ∧ g.Keeps after [target, source]
  | .exchange first last source =>
    ∃ t s t' s' names, answer = .renamed names ∧ g.find? first.chain = some t ∧ g.find? source = some s ∧
      after.find? first.chain = some t' ∧ after.find? source = some s' ∧
      Exchanged t first last s names t' s' ∧ g.Keeps after [first.chain, source]
  | .copyRange first last =>
    ∃ s copy names, answer = .renamed names ∧ g.find? first.chain = some s ∧ g.find? g.next = none ∧
      after.find? g.next = some copy ∧ Copied s first last names copy ∧ g.Keeps after [g.next]

section Step

variable {g : Group}

private theorem Sound.find?_next (sound : g.Sound) : g.find? g.next = none := by
  cases found : g.find? g.next with
  | none => rfl
  | some s =>
    obtain ⟨member, id⟩ := find?_some found
    have used : g.next ∈ g.ids := List.mem_flatMap.mpr ⟨s, member, id ▸ s.id_mem_ids⟩
    exact absurd (sound.fresh _ used) (Nat.lt_irrefl _)

/-- One stream changes, if the change succeeds at all. -/
theorem Sound.update (sound : g.Sound) {β : Type} (id : ChainId) (change : TokenStream → Except Error β)
    (result : β → Answer × TokenStream)
    (good : ∀ s b, g.find? id = some s → change s = .ok b →
      (result b).2.Sound ∧ (result b).2.chain.id = s.chain.id ∧ ∀ id, (result b).2.ids.count id ≤ s.ids.count id) :
    (g.update id fun s => (change s).map result).2.Sound ∧
      ((g.update id fun s => (change s).map result).1 ≠ .refused →
        ∃ s b, g.find? id = some s ∧ change s = .ok b ∧ (g.update id fun s => (change s).map result).1 = (result b).1 ∧
          (g.update id fun s => (change s).map result).2.find? id = some (result b).2 ∧
          g.Keeps (g.update id fun s => (change s).map result).2 [id]) := by
  unfold Group.update
  cases found : g.find? id with
  | none => exact ⟨sound, fun allowed => absurd rfl allowed⟩
  | some s =>
    cases changed : change s with
    | error e => simpa [changed, Except.map] using sound
    | ok b =>
      obtain ⟨each, same, counted⟩ := good s b found changed
      have named : (result b).2.chain.id = id := same.trans (find?_some found).2
      obtain ⟨after, here, others⟩ := sound.put (named ▸ found) each counted
      simp only [changed, Except.map]
      exact ⟨after, fun _ => ⟨s, b, rfl, changed, rfl, named ▸ here, named ▸ others⟩⟩

/-- Two streams change at once; a failed change may leave another source. -/
theorem Sound.updateTwo (sound : g.Sound) (target source : ChainId) (change : TokenStream → TokenStream → Moved)
    (good : ∀ t s names t' s', target ≠ source → g.find? target = some t → g.find? source = some s →
      change t s = (.ok (names, t'), s') →
      t'.Sound ∧ s'.Sound ∧ t'.chain.id = t.chain.id ∧ s'.chain.id = s.chain.id ∧
        ∀ id, t'.ids.count id + s'.ids.count id ≤ t.ids.count id + s.ids.count id)
    (bad : ∀ t s e s', target ≠ source → g.find? target = some t → g.find? source = some s →
      change t s = (.error e, s') → s'.Sound ∧ s'.chain.id = s.chain.id ∧ s'.ids = s.ids) :
    (g.updateTwo target source change).2.Sound ∧ ((g.updateTwo target source change).1 ≠ .refused →
      ∃ t s names t' s', g.find? target = some t ∧ g.find? source = some s ∧ change t s = (.ok (names, t'), s') ∧
        (g.updateTwo target source change).1 = .renamed names ∧
        (g.updateTwo target source change).2.find? target = some t' ∧
        (g.updateTwo target source change).2.find? source = some s' ∧
        target ≠ source ∧ g.Keeps (g.updateTwo target source change).2 [target, source]) := by
  unfold Group.updateTwo
  split_ifs with same
  · exact ⟨sound, fun allowed => absurd rfl allowed⟩
  cases foundTarget : g.find? target with
  | none => exact ⟨sound, fun allowed => absurd rfl allowed⟩
  | some t =>
  cases foundSource : g.find? source with
  | none => exact ⟨sound, fun allowed => absurd rfl allowed⟩
  | some s =>
    cases result : change t s with
    | mk outcome s' =>
    cases outcome with
    | error e =>
      obtain ⟨each, id, ids⟩ := bad t s e s' same foundTarget foundSource result
      have named : s'.chain.id = source := id.trans (find?_some foundSource).2
      simp only [result]
      exact ⟨(sound.put (named ▸ foundSource) each (fun id => Nat.le_of_eq (by rw [ids]))).1, fun allowed =>
        absurd rfl allowed⟩
    | ok pair =>
      obtain ⟨names, t'⟩ := pair
      obtain ⟨each, each', id, id', counted⟩ := good t s names t' s' same foundTarget foundSource result
      have named : t'.chain.id = target := id.trans (find?_some foundTarget).2
      have named' : s'.chain.id = source := id'.trans (find?_some foundSource).2
      obtain ⟨after, here, there, others⟩ := sound.putTwo (by rw [named, named']; exact same) (named ▸ foundTarget)
        (named' ▸ foundSource) each each' counted
      rw [named] at here
      rw [named'] at there
      rw [named, named'] at others
      simp only [result]
      exact ⟨after, fun _ => ⟨t, s, names, t', s', rfl, rfl, result, rfl, here, there, same, others⟩⟩

theorem Sound.distinct_pair (sound : g.Sound) {target source : ChainId} {t s : TokenStream} (apart : target ≠ source)
    (foundTarget : g.find? target = some t) (foundSource : g.find? source = some s) : (t.ids ++ s.ids).Nodup := by
  refine List.nodup_iff_count_le_one.mpr fun id => ?_
  have once := List.nodup_iff_count_le_one.mp sound.distinct id
  have left := count_remove sound.tops_nodup foundSource id
  have still : (g.remove source).find? target = some t := by simp [find?_remove, apart, foundTarget]
  obtain ⟨front, back, split⟩ := List.append_of_mem (find?_some still).1
  simp only [Group.ids, split, List.flatMap_append, List.flatMap_cons, List.count_append] at left once ⊢
  omega

theorem Sound.held (sound : g.Sound) {id : ChainId} {s : TokenStream} (found : g.find? id = some s) :
    s.Sound ∧ s.ids.Nodup ∧ s.chain.id = id :=
  ⟨sound.each _ (find?_some found).1, sound.distinct_of_mem (find?_some found).1, (find?_some found).2⟩

private theorem Sound.step_erase (sound : g.Sound) (first last : Handle) :
    (g.step (.erase first last)).2.Sound ∧ ((g.step (.erase first last)).1 ≠ .refused →
      ∃ s s', g.find? first.chain = some s ∧ (g.step (.erase first last)).2.find? first.chain = some s' ∧
        Erased s first last s' ∧ g.Keeps (g.step (.erase first last)).2 [first.chain]) := by
  have held := @sound.held
  obtain ⟨after, acts⟩ := sound.update first.chain (·.erase first last) (.done, ·) fun s b found done => by
    obtain ⟨each, id, counted, _⟩ := (held found).1.erase (held found).2.1 (held found).2.2.symm done
    exact ⟨each, id, counted⟩
  refine ⟨after, fun allowed => ?_⟩
  obtain ⟨s, b, found, done, _, found', others⟩ := acts allowed
  obtain ⟨_, _, _, erased⟩ := (held found).1.erase (held found).2.1 (held found).2.2.symm done
  exact ⟨s, b, found, found', erased, others⟩

private theorem Sound.step_attach (sound : g.Sound) (h : Handle) (held : ChainId) :
    (g.step (.attach h held)).2.Sound ∧ ((g.step (.attach h held)).1 ≠ .refused →
      Acts g (g.step (.attach h held)).1 (g.step (.attach h held)).2 (.attach h held)) := by
  simp only [Group.step]
  split_ifs with same
  · exact ⟨sound, fun allowed => absurd rfl allowed⟩
  cases found : g.find? held with
  | none => exact ⟨sound, fun allowed => absurd rfl allowed⟩
  | some sub =>
    have counted := count_remove sound.tops_nodup found
    have left : (g.remove held).Sound :=
      sound.of_count (fun s member => sound.each s (List.mem_filter.mp member).1) (fun id => by
        have total := counted id
        omega) rfl
    unfold Group.update
    cases foundOwner : (g.remove held).find? h.chain with
    | none => exact ⟨left, fun allowed => absurd rfl allowed⟩
    | some s =>
      have owner : g.find? h.chain = some s := by simpa [find?_remove, same] using foundOwner
      cases result : s.attach h sub with
      | error e => simpa [result, Except.map] using left
      | ok s' =>
        obtain ⟨each, bound, id, front, token, old, back, split, view⟩ :=
          (sound.held owner).1.attach (sound.held found).1 result
        have named : s'.chain.id = h.chain := id.trans (sound.held owner).2.2
        simp only [result, Except.map]
        refine ⟨sound.of_count (fun other member => ?_) (fun id => ?_) rfl, fun _ => ?_⟩
        · rcases mem_put member with rfl | older
          · exact each
          · exact left.each other older
        · have total := count_put left.tops_nodup (named ▸ foundOwner) id
          have attached := bound id
          have removed := counted id
          omega
        · refine ⟨s, s', sub, front, token, old, back, owner, found, ?_, ?_, split, view, fun id outside => ?_⟩
          · simp [find?_put, named, foundOwner]
          · simp [find?_put, find?_remove, named, Ne.symm same]
          · obtain ⟨one, other⟩ : id ≠ h.chain ∧ id ≠ held := by simpa using outside
            simp [find?_put, find?_remove, named, one, other]

private theorem Sound.step_copyRange (sound : g.Sound) (first last : Handle) :
    (g.step (.copyRange first last)).2.Sound ∧ ((g.step (.copyRange first last)).1 ≠ .refused →
      Acts g (g.step (.copyRange first last)).1 (g.step (.copyRange first last)).2 (.copyRange first last)) := by
  simp only [Group.step]
  cases found : g.find? first.chain with
  | none => exact ⟨sound, fun allowed => absurd rfl allowed⟩
  | some s =>
    cases result : s.copyRange g.next first last with
    | error e => simpa [result] using sound
    | ok pair =>
      obtain ⟨names, copy⟩ := pair
      obtain ⟨each, ids, id, copied⟩ := (sound.held found).1.copyRange (sound.held found).2.2.symm result
      have absent := sound.find?_next
      simp only [result]
      refine ⟨sound.add each ids, fun _ => ⟨s, copy, names, rfl, found, absent, ?_, copied, fun other outside => ?_⟩⟩
      · simp [find?_add, absent, id]
      · have apart : copy.chain.id ≠ other := fun same => outside (by simp [← same, id])
        simp [find?_add, apart]

/-- Every operation keeps the group sound, and acts as its name says unless it is refused. -/
theorem Sound.step (sound : g.Sound) (operation : Operation) :
    (g.step operation).2.Sound ∧
      ((g.step operation).1 ≠ .refused → Acts g (g.step operation).1 (g.step operation).2 operation) := by
  have held := @sound.held
  cases operation with
  | create =>
    have after := sound.add (sound_empty g.next) (by simp [TokenStream.empty, TokenStream.ids, idsAmong])
    have absent := sound.find?_next
    refine ⟨after, fun _ => ⟨.empty g.next, absent, ?_, rfl, fun id outside => ?_⟩⟩
    · simp [Group.step, find?_add, absent, TokenStream.empty]
    · have apart : g.next ≠ id := fun same => outside (by simp [same])
      simp [Group.step, find?_add, TokenStream.empty, apart]
  | push id token =>
    obtain ⟨after, acts⟩ := sound.update id (fun s => .ok (s.push token)) (fun b => (.placed b.1, b.2))
      fun s _ found done => by
      cases done
      obtain ⟨each, _, id, ids⟩ := (held found).1.push token
      exact ⟨each, id, fun _ => Nat.le_of_eq (by rw [ids])⟩
    refine ⟨after, fun allowed => ?_⟩
    obtain ⟨s, _, found, ⟨⟩, answer, found', others⟩ := acts allowed
    exact ⟨s, _, _, answer, found, found', ((held found).1.push token).2.1, others⟩
  | insertBefore before token =>
    obtain ⟨after, acts⟩ := sound.update before.chain (·.insertBefore before token) (fun b => (.placed b.1, b.2))
      fun s b found done => by
        obtain ⟨each, ids, id, _⟩ := (held found).1.insertBefore (held found).2.2.symm done
        exact ⟨each, id, fun _ => Nat.le_of_eq (by rw [ids])⟩
    refine ⟨after, fun allowed => ?_⟩
    obtain ⟨s, b, found, done, answer, found', others⟩ := acts allowed
    obtain ⟨_, _, _, front, piece, back, split, named, view⟩ := (held found).1.insertBefore (held found).2.2.symm done
    exact ⟨s, _, _, front, piece, back, answer, found, found', split, named, view, others⟩
  | insertAfter behind token =>
    obtain ⟨after, acts⟩ := sound.update behind.chain (·.insertAfter behind token) (fun b => (.placed b.1, b.2))
      fun s b found done => by
        obtain ⟨each, ids, id, _⟩ := (held found).1.insertAfter (held found).2.2.symm done
        exact ⟨each, id, fun _ => Nat.le_of_eq (by rw [ids])⟩
    refine ⟨after, fun allowed => ?_⟩
    obtain ⟨s, b, found, done, answer, found', others⟩ := acts allowed
    obtain ⟨_, _, _, front, piece, back, split, named, view⟩ := (held found).1.insertAfter (held found).2.2.symm done
    exact ⟨s, _, _, front, piece, back, answer, found, found', split, named, view, others⟩
  | erase first last => exact sound.step_erase first last
  | eraseOne h => exact sound.step_erase h h
  | attach h held => exact sound.step_attach h held
  | moveRange target before first last =>
    obtain ⟨after, acts⟩ := sound.updateTwo target first.chain (fun t s => t.moveRange before s first last)
      (fun t s names t' s' _ target source done => by
        obtain ⟨each, each', id, id', total, _⟩ :=
          (held target).1.moveRange (held source).1 (held source).2.1 (held source).2.2.symm done
        exact ⟨each, each', id, id', fun id => Nat.le_of_eq (total id)⟩)
      (fun t s e s' _ _ source failed => by
        obtain rfl := moveRange_refused failed
        exact ⟨(held source).1, rfl, rfl⟩)
    refine ⟨after, fun allowed => ?_⟩
    obtain ⟨t, s, names, t', s', target, source, done, answer, here, there, _, others⟩ := acts allowed
    obtain ⟨_, _, _, _, _, moved⟩ :=
      (held target).1.moveRange (held source).1 (held source).2.1 (held source).2.2.symm done
    exact ⟨t, s, t', s', names, answer, target, source, here, there, moved, others⟩
  | moveAll target before source =>
    obtain ⟨after, acts⟩ := sound.updateTwo target source (fun t s => t.moveAll before s)
      (fun t s names t' s' _ target source done => by
        obtain ⟨each, each', id, id', total, _⟩ := (held target).1.moveAll (held source).1 (held source).2.1 done
        exact ⟨each, each', id, id', fun id => Nat.le_of_eq (total id)⟩)
      (fun t s e s' _ _ source failed => by
        obtain rfl := moveAll_refused failed
        obtain ⟨each, ids, id, _⟩ := (held source).1.adoptNewlines t
        exact ⟨each, id, ids⟩)
    refine ⟨after, fun allowed => ?_⟩
    obtain ⟨t, s, names, t', s', target, source, done, answer, here, there, _, others⟩ := acts allowed
    obtain ⟨_, _, _, _, _, moved⟩ := (held target).1.moveAll (held source).1 (held source).2.1 done
    exact ⟨t, s, t', s', names, answer, target, source, here, there, moved, others⟩
  | exchange first last source =>
    obtain ⟨after, acts⟩ := sound.updateTwo first.chain source (fun t s => t.exchange first last s)
      (fun t s names t' s' apart target source done => by
        obtain ⟨each, each', id, id', total, _⟩ := (held target).1.exchange (held source).1
          (sound.distinct_pair apart target source) (held target).2.2.symm done
        exact ⟨each, each', id, id', total⟩)
      (fun t s e s' _ target source failed => by
        obtain rfl := (held target).1.exchange_refused (held source).1 (held source).2.1 (held target).2.2.symm failed
        obtain ⟨each, ids, id⟩ := (held source).1.unexchanged t first last
        exact ⟨each, id, ids⟩)
    refine ⟨after, fun allowed => ?_⟩
    obtain ⟨t, s, names, t', s', target, source, done, answer, here, there, apart, others⟩ := acts allowed
    obtain ⟨_, _, _, _, _, exchanged⟩ := (held target).1.exchange (held source).1
      (sound.distinct_pair apart target source) (held target).2.2.symm done
    exact ⟨t, s, t', s', names, answer, target, source, here, there, exchanged, others⟩
  | copyRange first last => exact sound.step_copyRange first last

end Step

private theorem sound_run (history : List Operation) : (run history).Sound := by
  have start : ({} : Group).Sound := ⟨by simp, List.nodup_nil, by simp [ids]⟩
  have onward : ∀ (history : List Operation) (g : Group), g.Sound →
      (history.foldl (fun g operation => (g.step operation).2) g).Sound := by
    intro history
    induction history with
    | nil => exact fun g sound => sound
    | cons operation rest ih => exact fun g sound => ih _ (sound.step operation).1
  exact onward history {} start

end Group

/-- A stream is what its list of pieces says: the links run through the occupied slots
from the first to the last and back, the free list holds the other slots, the slots
that own streams are listed, and every way to read the stream reads that list. -/
structure Exact (s : TokenStream) : Prop where
  links : s.chain.Linked (s.view.map (·.1.index))
  occupied : ∀ index, (s.chain.itemAt? index).isSome ↔ index ∈ s.view.map (·.1.index)
  owners : (s.nested.map (·.1)).Nodup ∧
    ∀ index, index ∈ s.nested.map (·.1) ↔ ∃ h token sub, (h, token, some sub) ∈ s.view ∧ h.index = index
  size : s.size = s.view.length
  first : s.first? = s.view.head?.map (·.1)
  last : s.last? = s.view.getLast?.map (·.1)
  member : ∀ h, s.contains h = true ↔ h ∈ s.view.map (·.1)
  token : ∀ h token, h.chain = s.id → (s.get? h = some token ↔ (h, token) ∈ s.view.map fun piece =>
    (piece.1, piece.2.1))
  neighbours : ∀ front piece back, s.view = front ++ piece :: back →
    s.prev? piece.1 = front.getLast?.map (·.1) ∧ s.next? piece.1 = back.head?.map (·.1)

private theorem Sound.owner_iff {s : TokenStream} (sound : s.Sound) (index : Nat) :
    index ∈ s.nested.map (·.1) ↔ ∃ h token sub, (h, token, some sub) ∈ s.view ∧ h.index = index := by
  constructor
  · intro listed
    obtain ⟨entry, inside, rfl⟩ := List.mem_map.mp (sound.placed listed)
    cases found : s.nested.lookup (Chain.slotOf entry) with
    | none =>
      obtain ⟨place, member, same⟩ := List.mem_map.mp listed
      simpa [same] using List.lookup_eq_none_iff.mp found place member
    | some place =>
      obtain ⟨_, _, parts, _⟩ := List.lookup_eq_some_iff.mp found
      have member : (Chain.slotOf entry, place) ∈ s.nested := by simp [parts]
      obtain ⟨sub, rfl⟩ := sound.owned member
      have owned : s.subAt? entry.1.index = some sub := Option.join_eq_some_iff.mpr found
      exact ⟨entry.1, entry.2, sub, List.mem_map.mpr ⟨entry, inside, by simp [piece, owned]⟩, rfl⟩
  · rintro ⟨h, token, sub, member, rfl⟩
    obtain ⟨entry, _, same⟩ := List.mem_map.mp member
    have handle : entry.1 = h := congrArg (·.1) same
    have owned : s.subAt? entry.1.index = some sub := congrArg (·.2.2) same
    obtain ⟨_, _, parts, _⟩ := List.lookup_eq_some_iff.mp (Option.join_eq_some_iff.mp owned)
    rw [← handle, parts]
    simp

theorem Sound.exact {s : TokenStream} (sound : s.Sound) : s.Exact := by
  have slots : s.view.map (·.1.index) = s.chain.entries.map Chain.slotOf := by
    rw [view, List.map_map]
    rfl
  have handles : s.view.map (·.1) = s.chain.entries.map (·.1) := by
    rw [view, List.map_map]
    rfl
  have linked : s.chain.Linked (s.view.map (·.1.index)) := slots ▸ sound.chain
  refine ⟨linked, fun index => (linked.mem_iff index).symm, ⟨sound.places_nodup, sound.owner_iff⟩, ?_, sound.ends.1,
    sound.ends.2, fun h => ?_, fun h token own => ?_, fun front piece back split => ?_⟩
  · rw [view, List.length_map]
    exact sound.chain.size_eq
  · rw [handles]
    exact sound.chain.contains_iff h
  · have contents : (s.view.map fun piece => (piece.1, piece.2.1)) = s.chain.entries := by
      rw [view, List.map_map]
      exact List.map_id _
    have direct : s.chainOf? h.chain = some s.chain := own ▸ s.chainOf?_self
    rw [contents, get?_eq, direct]
    exact sound.chain.get?_eq_some h token
  · obtain ⟨ahead, others, entries, rfl, tail⟩ := List.map_eq_append_iff.mp split
    obtain ⟨entry, behind, rfl, rfl, rfl⟩ := List.map_eq_cons_iff.mp tail
    have own : entry.1.chain = s.chain.id := sound.chain.chain_eq (by simp [← entries_eq, entries])
    have direct : s.owner? entry.1.chain = some s := own ▸ s.owner?_self
    obtain ⟨prev, next⟩ := sound.chain.neighbours entries
    refine ⟨?_, ?_⟩
    · rw [List.getLast?_map, Option.map_map]
      exact (show s.prev? entry.1 = s.chain.prev? entry.1 by simp [prev?, direct]).trans prev
    · rw [List.head?_map, Option.map_map]
      exact (show s.next? entry.1 = s.chain.next? entry.1 by simp [next?, direct]).trans next

/-- Streams refine lists: after any sequence of operations on a group, every stream of
it, also a nested one, is what its list of pieces says; and any further operation
is refused or acts on these lists as the list operation that it names. -/
theorem streams_refine_lists (history : List Operation) :
    (∀ s ∈ (Group.run history).streams, ∀ id stream, s.owner? id = some stream → stream.Exact) ∧
      ∀ operation, ((Group.run history).step operation).1 ≠ .refused →
        (Group.run history).Acts ((Group.run history).step operation).1 ((Group.run history).step operation).2
          operation := by
  have sound := Group.sound_run history
  refine ⟨fun s member id stream held => ?_, fun operation => (sound.step operation).2⟩
  exact ((sound.each s member).owner? held).exact

/-- A token goes from one stream right before the token of another. -/
theorem streams_refine_lists_move :
    let letter (text : String) : Token := { kind := .identifier, literal := .ofText text }
    let history : List Operation := [.create, .push 0 (letter "a"), .push 0 (letter "b"), .create, .push 1 (letter "c")]
    let operation : Operation := .moveRange 1 (some ⟨1, 0, 0⟩) ⟨0, 1, 0⟩ ⟨0, 1, 0⟩
    ((Group.run history).step operation).1 ≠ .refused ∧
      (Group.run history).Acts ((Group.run history).step operation).1 ((Group.run history).step operation).2
        operation := by
  intro letter history operation
  have allowed : ((Group.run history).step operation).1 ≠ .refused := by decide +kernel
  exact ⟨allowed, (streams_refine_lists history).2 operation allowed⟩

end YaraRules.TokenStream
