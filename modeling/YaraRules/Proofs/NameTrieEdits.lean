import Mathlib.Data.List.Sort
import YaraRules.Proofs.NameListings

/-! Tries as lists. Whatever is inserted, removed or renamed, a trie answers as the list of its
names and values in the order of insertion does. The places below a node are those of the
names that begin with the way to it, and the places of one name ascend, so whatever the
tree leads to can be read off the list. -/

namespace YaraRules.NameTrie

variable {α : Type} {t t' : NameTrie α} {name old new : String}

/-! ### Branches -/

mutual

/-- No character leads to two nodes. -/
def Node.Branched : Node → Prop
  | mk _ children => (children.map (·.1)).Nodup ∧ BranchedAmong children

def Node.BranchedAmong : List (Char × Node) → Prop
  | [] => True
  | (_, child) :: rest => child.Branched ∧ BranchedAmong rest

end

namespace Node

variable {c : Char} {child : Node} {children : List (Char × Node)} {place : Nat}

private theorem branched_empty : Node.empty.Branched := ⟨List.nodup_nil, trivial⟩

theorem BranchedAmong.lookup (branched : BranchedAmong children) (found : children.lookup c = some child) :
    child.Branched := by
  induction children with
  | nil => cases found
  | cons entry rest ih =>
    obtain ⟨d, other⟩ := entry
    rw [List.lookup_cons] at found
    split at found
    · cases found
      exact branched.1
    · exact ih branched.2 found

theorem BranchedAmong.putChild (branched : BranchedAmong children) (own : child.Branched) :
    BranchedAmong (putChild c child children) := by
  induction children with
  | nil => exact ⟨own, trivial⟩
  | cons entry rest ih =>
    obtain ⟨d, other⟩ := entry
    unfold Node.putChild
    split_ifs
    · exact ⟨own, branched.2⟩
    · exact ⟨branched.1, ih branched.2⟩

private theorem mem_putChild {d : Char} : d ∈ (putChild c child children).map (·.1) ↔ d = c ∨
    d ∈ children.map (·.1) := by
  induction children with
  | nil => simp [putChild]
  | cons entry rest ih =>
    obtain ⟨e, other⟩ := entry
    unfold putChild
    split_ifs with same
    · simp [beq_iff_eq.mp same]
    · rw [List.map_cons, List.mem_cons, ih, List.map_cons, List.mem_cons]
      tauto

private theorem nodup_putChild (nodup : (children.map (·.1)).Nodup) :
    ((putChild c child children).map (·.1)).Nodup := by
  induction children with
  | nil => simp [putChild]
  | cons entry rest ih =>
    obtain ⟨e, other⟩ := entry
    obtain ⟨fresh, nodup'⟩ := List.nodup_cons.mp nodup
    unfold putChild
    split_ifs with same
    · exact nodup
    · refine List.nodup_cons.mpr ⟨fun listed => ?_, ih nodup'⟩
      rcases mem_putChild.mp listed with equal | before
      · exact same (beq_iff_eq.mpr equal)
      · exact fresh before

theorem Branched.update (f : List Nat → List Nat) :
    ∀ {node : Node} {name : List Char}, node.Branched → (node.update f name).Branched
  | mk _ _, [], branched => branched
  | mk _ children, c :: name, ⟨nodup, branched⟩ => by
    refine ⟨nodup_putChild nodup, branched.putChild (Branched.update f ?_)⟩
    cases found : children.lookup c with
    | none => exact branched_empty
    | some child => exact branched.lookup found

theorem Branched.find? : ∀ {node found : Node}
    {name : List Char}, node.Branched → node.find? name = some found → found.Branched
  | _, _, [], branched, done => by
    cases done
    exact branched
  | mk _ children, found, c :: name, ⟨_, branched⟩, done => by
    unfold Node.find? at done
    split at done
    next child listed => exact Branched.find? (branched.lookup listed) done
    next => cases done

private theorem placesAt_append (start name : List Char) : ∀ node : Node,
    node.placesAt (start ++ name) = ((node.find? start).map (·.placesAt name)).getD [] := by
  induction start with
  | nil => exact fun node => by simp [find?]
  | cons c start ih =>
    intro node
    rw [List.cons_append, placesAt_cons, ih, find?]
    cases node.children.lookup c with
    | none => cases start <;> cases name <;> rfl
    | some child => rfl

/-- Past a branch that is not repeated, the later branches lead where all of them lead. -/
theorem lookup_fresh {d : Char} {rest : List (Char × Node)} (fresh : d ∉ rest.map (·.1)) (child : Node) (c : Char) :
    rest.lookup c = none ∨ ((d, child) :: rest).lookup c = rest.lookup c := by
  by_cases same : c = d
  · refine .inl (List.lookup_eq_none_iff.mpr fun (e, other) member => bne_iff_ne.mpr fun equal => fresh ?_)
    exact (same.symm.trans equal) ▸ List.mem_map_of_mem member
  · exact .inr (by rw [List.lookup_cons, beq_false_of_ne same])

mutual

private theorem mem_allPlaces : ∀ {node : Node}, node.Branched →
    (place ∈ node.allPlaces ↔ ∃ name, place ∈ node.placesAt name)
  | mk places children, ⟨nodup, branched⟩ => by
    rw [allPlaces, List.mem_append, mem_allPlacesBelow nodup branched]
    constructor
    · rintro (here | ⟨c, name, below⟩)
      · exact ⟨[], here⟩
      · exact ⟨c :: name, placesAt_cons (mk places children) c name ▸ below⟩
    · rintro ⟨_ | ⟨c, name⟩, listed⟩
      · exact .inl listed
      · exact .inr ⟨c, name, placesAt_cons (mk places children) c name ▸ listed⟩

private theorem mem_allPlacesBelow : ∀ {children : List (Char × Node)}, (children.map (·.1)).Nodup →
    BranchedAmong children →
    (place ∈ allPlacesBelow children ↔ ∃ c name, place ∈ ((children.lookup c).getD .empty).placesAt name)
  | [], _, _ => by simp [allPlacesBelow, placesAt_empty]
  | (d, child) :: rest, nodup, ⟨first, later⟩ => by
    obtain ⟨fresh, nodup⟩ := List.nodup_cons.mp nodup
    rw [allPlacesBelow, List.mem_append, mem_allPlaces first, mem_allPlacesBelow nodup later]
    constructor
    · rintro (⟨name, here⟩ | ⟨c, name, below⟩)
      · exact ⟨d, name, by simpa using here⟩
      · rcases lookup_fresh fresh child c with missing | same
        · simp [missing, placesAt_empty] at below
        · exact ⟨c, name, same ▸ below⟩
    · rintro ⟨c, name, listed⟩
      rw [List.lookup_cons] at listed
      split at listed
      · exact .inl ⟨name, listed⟩
      · exact .inr ⟨c, name, listed⟩

end

mutual

/-- If no name has a place twice and no two names share one, no place is met twice. -/
theorem nodup_allPlaces : ∀ {node : Node}, node.Branched → (∀ name, (node.placesAt name).Nodup) →
    (∀ name name' place, place ∈ node.placesAt name → place ∈ node.placesAt name' → name = name') → node.allPlaces.Nodup
  | mk places children, ⟨nodup, branched⟩, once, apart => by
    refine List.nodup_append.mpr ⟨once [], nodup_allPlacesBelow nodup branched (fun c name => ?_)
      (fun c name c' name' place here there => ?_), fun place here other below same => ?_⟩
    · exact placesAt_cons (mk places children) c name ▸ once (c :: name)
    · have equal := apart (c :: name) (c' :: name') place (placesAt_cons (mk places children) c name ▸ here)
        (placesAt_cons (mk places children) c' name' ▸ there)
      exact List.cons.inj equal
    · obtain ⟨c, name, there⟩ := (mem_allPlacesBelow nodup branched).mp (same ▸ below)
      cases apart [] (c :: name) place here (placesAt_cons (mk places children) c name ▸ there)

private theorem nodup_allPlacesBelow : ∀ {children : List (Char × Node)}, (children.map (·.1)).Nodup →
    BranchedAmong children →
    (∀ c name, (((children.lookup c).getD .empty).placesAt name).Nodup) →
    (∀ c name c' name' place, place ∈ ((children.lookup c).getD .empty).placesAt name →
      place ∈ ((children.lookup c').getD .empty).placesAt name' → c = c' ∧ name = name') →
      (allPlacesBelow children).Nodup
  | [], _, _, _, _ => List.nodup_nil
  | (d, child) :: rest, nodup, ⟨first, later⟩, once, apart => by
    obtain ⟨fresh, nodup⟩ := List.nodup_cons.mp nodup
    have own : ((d, child) :: rest).lookup d = some child := by simp
    have within {c name place} (listed : place ∈ ((rest.lookup c).getD .empty).placesAt name) :
        place ∈ ((((d, child) :: rest).lookup c).getD .empty).placesAt name := by
      rcases lookup_fresh fresh child c with missing | same
      · simp [missing, placesAt_empty] at listed
      · exact same ▸ listed
    refine List.nodup_append.mpr ⟨nodup_allPlaces first (fun name => ?_) (fun name name' place here there => ?_),
      nodup_allPlacesBelow nodup later (fun c name => ?_)
        (fun c name c' name' place here there => apart c name c' name' place (within here) (within there)),
      fun place here other below same => ?_⟩
    · simpa [own] using once d name
    · exact (apart d name d name' place (by simpa [own] using here) (by simpa [own] using there)).2
    · rcases lookup_fresh fresh child c with missing | same
      · simp [missing, placesAt_empty]
      · exact same ▸ once c name
    · obtain ⟨name, here⟩ := (mem_allPlaces first).mp here
      obtain ⟨c, name', there⟩ := (mem_allPlacesBelow nodup later).mp (same ▸ below)
      obtain rfl : d = c := (apart d name c name' place (by simpa [own] using here) (within there)).1
      have missing : rest.lookup d = none :=
        List.lookup_eq_none_iff.mpr fun (_, other) member => bne_iff_ne.mpr fun equal =>
          fresh (List.mem_map.mpr ⟨_, member, equal.symm⟩)
      simp [missing, placesAt_empty] at there

end

end Node

/-! ### Places in order -/

/-- The places of a name ascend, and every name has a way of its own. -/
structure Ruled (t : NameTrie α) : Prop extends t.Indexed where
  ascending : ∀ name, (t.placesOf name).Pairwise (· < ·)
  branched : t.root.Branched

private theorem ruled_empty : ({} : NameTrie α).Ruled where
  toIndexed := indexed_empty
  ascending name := by
    rw [placesOf_eq, show ({} : NameTrie α).root = .empty from rfl, Node.placesAt_empty]
    exact .nil
  branched := Node.branched_empty

private theorem filterMap_valueAt? (t : NameTrie α) (chosen : String → Bool) :
    (List.range t.items.size).filterMap (fun place => ((t.items[place]?).join.filter (chosen ·.1)).map (·.2)) =
      (t.toList.filter (chosen ·.1)).map (·.2) := by
  have row : (List.range t.items.size).map (fun place => t.items[place]?) = t.items.toList.map some := by
    refine List.ext_getElem (by simp) fun place inside _ => ?_
    simp only [List.length_map, List.length_range] at inside
    simp [inside]
  calc
    _ = ((List.range t.items.size).map fun place => t.items[place]?).filterMap
          fun held => (held.join.filter (chosen ·.1)).map (·.2) := by rw [List.filterMap_map]; rfl
    _ = t.items.toList.filterMap fun held => (held.filter (chosen ·.1)).map (·.2) := by
      rw [row, List.filterMap_map]; rfl
    _ = (t.toList.filter (chosen ·.1)).map (·.2) := by
      rw [toList, List.filter_filterMap, List.map_filterMap]
      rfl

/-- Places of the values whose name begins so. -/
def placesBelow (t : NameTrie α) (start : String) : List Nat := ((t.root.find? start.toList).map (·.allPlaces)).getD []

private theorem findByStart_below (t : NameTrie α) (start : String) :
    t.findByStart start = ((List.range t.items.size).filter (t.placesBelow start).contains).filterMap t.valueAt? := by
  unfold findByStart placesBelow
  cases t.root.find? start.toList <;> simp

theorem placesOf_append {start : String} {node : Node} (reached : t.root.find? start.toList = some node)
    (name : List Char) : node.placesAt name = t.placesOf (String.ofList (start.toList ++ name)) := by
  rw [placesOf_eq, String.toList_ofList, Node.placesAt_append, reached, Option.map_some, Option.getD_some]

namespace Ruled

variable (ruled : t.Ruled)
include ruled

private theorem placesOf_range (name : String) :
    t.placesOf name = (List.range t.items.size).filter fun place => (t.items[place]?).join.any (·.1 == name) := by
  have members (place : Nat) : place ∈ t.placesOf name ↔
      place ∈ (List.range t.items.size).filter fun place => (t.items[place]?).join.any (·.1 == name) := by
    constructor
    · intro listed
      obtain ⟨value, held⟩ := ruled.filed name place listed
      exact List.mem_filter.mpr ⟨List.mem_range.mpr (Array.getElem?_eq_some_iff.mp held).1, by simp [held]⟩
    · intro chosen
      obtain ⟨item, held, same⟩ := (Option.any_eq_true ..).mp (List.mem_filter.mp chosen).2
      exact (ruled.mem_placesOf (Option.join_eq_some_iff.mp held)).mpr (beq_iff_eq.mp same)
  exact (ruled.ascending name).eq_of_mem_iff (List.pairwise_lt_range.filter _) members

private theorem values_placesOf (name : String) :
    (t.placesOf name).filterMap t.valueAt? = (t.toList.filter (·.1 == name)).map (·.2) := by
  rw [← t.filterMap_valueAt? (· == name), ruled.placesOf_range, List.filterMap_filter]
  refine List.filterMap_congr fun place _ => ?_
  unfold valueAt?
  cases (t.items[place]?).join with
  | none => rfl
  | some item => by_cases same : item.1 = name <;> simp [same, Option.filter]

/-- A name leads to the first value that has it. -/
theorem get?_eq (name : String) : t.get? name = (t.toList.find? (·.1 == name)).map (·.2) := by
  rw [← List.head?_filter, ← List.head?_map, ← ruled.values_placesOf]
  show (t.placesOf name).head?.bind t.valueAt? = _
  cases listed : t.placesOf name with
  | nil => rfl
  | cons first rest =>
    obtain ⟨value, held⟩ := ruled.filed name first (by simp [listed])
    have there : t.valueAt? first = some value := by simp [valueAt?, held]
    simp [there]

private theorem mem_placesBelow {place : Nat} {item : String × α} (held : t.items[place]? = some (some item))
    (start : String) : place ∈ t.placesBelow start ↔ start.toList <+: item.1.toList := by
  unfold placesBelow
  have reaches (rest : List Char) : start.toList ++ rest = item.1.toList ↔
      place ∈ ((t.root.find? start.toList).map (·.placesAt rest)).getD [] := by
    rw [← Node.placesAt_append, ← String.toList_ofList (l := start.toList ++ rest), ← placesOf_eq,
      ruled.mem_placesOf held, ← String.toList_inj, String.toList_ofList, eq_comm]
  cases reached : t.root.find? start.toList with
  | none =>
    refine iff_of_false List.not_mem_nil fun ⟨rest, whole⟩ => ?_
    have listed := (reaches rest).mp whole
    simp [reached] at listed
  | some node =>
    rw [Option.map_some, Option.getD_some, Node.mem_allPlaces (ruled.branched.find? reached)]
    exact exists_congr fun rest => by rw [reaches, reached, Option.map_some, Option.getD_some]

private theorem findByStart_eq (start : String) :
    t.findByStart start = (t.toList.filter (start.toList.isPrefixOf ·.1.toList)).map (·.2) := by
  rw [← t.filterMap_valueAt? fun name => start.toList.isPrefixOf name.toList, findByStart_below, List.filterMap_filter]
  refine List.filterMap_congr fun place _ => ?_
  unfold valueAt?
  cases held : t.items[place]? with
  | none => simp
  | some found =>
    cases found with
    | none => simp
    | some item =>
      have here : (t.placesBelow start).contains place = start.toList.isPrefixOf item.1.toList := by
        rw [Bool.eq_iff_iff, List.contains_iff_mem, ruled.mem_placesBelow held, List.isPrefixOf_iff_prefix]
      rw [here]
      cases begins : start.toList.isPrefixOf item.1.toList
        <;> simp only [Option.join_some, Option.filter, begins] <;> rfl

private theorem nodup_placesBelow (start : String) : (t.placesBelow start).Nodup := by
  unfold placesBelow
  cases reached : t.root.find? start.toList with
  | none => exact List.nodup_nil
  | some node =>
    refine Node.nodup_allPlaces (ruled.branched.find? reached) (fun name => ?_) fun name name' place here there => ?_
    · exact placesOf_append reached name ▸ ruled.once _
    · rw [placesOf_append reached] at here there
      obtain ⟨_, held⟩ := ruled.filed _ place here
      obtain ⟨_, held'⟩ := ruled.filed _ place there
      have same : String.ofList (start.toList ++ name) = String.ofList (start.toList ++ name') := by
        rw [held] at held'
        exact (Prod.mk.inj (Option.some.inj (Option.some.inj held'))).1
      exact List.append_cancel_left (String.ofList_inj.mp same)

/-- What is found by the beginning of its name is what the tree holds there, sorted by place. -/
theorem findByStart_sorted (start : String) :
    t.findByStart start = (t.placesBelow start).mergeSort.filterMap t.valueAt? := by
  have members (place : Nat) : place ∈ (List.range t.items.size).filter (t.placesBelow start).contains ↔
      place ∈ (t.placesBelow start).mergeSort := by
    rw [List.mem_mergeSort, List.mem_filter, List.contains_iff_mem, List.mem_range]
    refine and_iff_right_of_imp fun below => ?_
    obtain ⟨node, reached, below⟩ : ∃ node, t.root.find? start.toList = some node ∧ place ∈ node.allPlaces := by
      unfold placesBelow at below
      cases reached : t.root.find? start.toList with
      | none => simp [reached] at below
      | some node => exact ⟨node, rfl, by simpa [reached] using below⟩
    obtain ⟨name, below⟩ := (Node.mem_allPlaces (ruled.branched.find? reached)).mp below
    rw [placesOf_append reached] at below
    obtain ⟨_, held⟩ := ruled.filed _ place below
    exact (Array.getElem?_eq_some_iff.mp held).1
  have same := (List.perm_ext_iff_of_nodup (List.nodup_range.filter _)
    ((List.mergeSort_perm ..).nodup_iff.mpr (ruled.nodup_placesBelow start))).mpr members
  rw [findByStart_below, same.eq_of_pairwise' ((List.pairwise_lt_range.imp Nat.le_of_lt).filter _)
    (List.pairwise_mergeSort' (· ≤ ·) _)]

/-! ### Changes -/

theorem insertAgain (name : String) (value : α) : (t.insertAgain name value).Ruled where
  toIndexed := ruled.toIndexed.insertAgain name value
  branched := ruled.branched.update _
  ascending other := by
    rw [placesOf_insertAgain]
    split_ifs
    · refine List.pairwise_append.mpr ⟨ruled.ascending name, List.pairwise_singleton _ _,
        fun place listed last same => ?_⟩
      obtain ⟨value', held⟩ := ruled.filed name place listed
      exact List.mem_singleton.mp same ▸ (Array.getElem?_eq_some_iff.mp held).1
    · exact ruled.ascending other

theorem remove (name : String) : (t.remove name).2.Ruled := by
  have indexed := (ruled.toIndexed.remove name).1
  unfold NameTrie.remove at indexed ⊢
  cases reached : t.root.find? name.toList with
  | none => exact ruled
  | some node =>
    simp only [reached] at indexed
    refine ⟨indexed, fun other => ?_, ruled.branched.update _⟩
    rw [placesOf_eq, Node.placesAt_update]
    split_ifs
    · exact .nil
    · exact placesOf_eq t other ▸ ruled.ascending other

theorem rename? (done : t.rename? old new = some t') : t'.Ruled := by
  have indexed := (ruled.toIndexed.rename? done).1
  unfold NameTrie.rename? at done
  split_ifs at done
  cases listed : t.placesOf old with
  | nil => simp [listed] at done
  | cons first rest =>
    rw [listed] at done
    obtain rfl := Option.some.inj done
    refine ⟨indexed, fun name => ?_, (ruled.branched.update _).update _⟩
    rw [placesOf_eq, Node.placesAt_update, Node.placesAt_update]
    split_ifs
    · exact listed ▸ ruled.ascending old
    · exact .nil
    · exact placesOf_eq t name ▸ ruled.ascending name

/-- What is removed are the values of the name. -/
theorem removed (name : String) : (t.remove name).1 = (t.toList.filter (·.1 == name)).map (·.2) := by
  rw [← ruled.values_placesOf]
  unfold NameTrie.remove placesOf
  cases t.root.find? name.toList <;> rfl

private theorem contains_eq (name : String) : t.contains name = t.toList.any (·.1 == name) := by
  rw [contains, ruled.get?_eq, Option.isSome_map, List.isSome_find?]

private theorem rename?_isSome :
    (t.rename? old new).isSome = (t.toList.any (·.1 == old) && !t.toList.any (·.1 == new)) := by
  rw [← ruled.contains_eq, ← ruled.contains_eq]
  cases taken : t.contains new with
  | true => simp [NameTrie.rename?, taken]
  | false =>
    cases there : t.contains old with
    | false => simp [NameTrie.rename?, taken, ruled.places_nil there]
    | true =>
      obtain ⟨value, got⟩ := Option.isSome_iff_exists.mp there
      obtain ⟨t', done⟩ := rename?_of_free taken got
      simp [done]

end Ruled

/-! ### Runs of changes -/

/-- A change that is asked of a trie. -/
inductive Change (α : Type) where
  | insert (name : String) (value : α)
  | insertAgain (name : String) (value : α)
  | remove (name : String)
  | rename (old new : String)

/-- What a change answers. -/
inductive Answer (α : Type) where
  | done
  | refused
  | removed (values : List α)
deriving DecidableEq

/-- The answer to a change, and the trie afterwards. -/
def change (t : NameTrie α) : Change α → Answer α × NameTrie α
  | .insert name value => (t.insert? name value).elim (.refused, t) (.done, ·)
  | .insertAgain name value => (.done, t.insertAgain name value)
  | .remove name => (.removed (t.remove name).1, (t.remove name).2)
  | .rename old new => (t.rename? old new).elim (.refused, t) (.done, ·)

/-- The same of a list of names and values. -/
def changeList (items : List (String × α)) : Change α → Answer α × List (String × α)
  | .insert name value => if items.any (·.1 == name) then (.refused, items) else (.done, items ++ [(name, value)])
  | .insertAgain name value => (.done, items ++ [(name, value)])
  | .remove name => (.removed ((items.filter (·.1 == name)).map (·.2)), items.filter (·.1 != name))
  | .rename old new =>
    if items.any (·.1 == old) && !items.any (·.1 == new) then (.done, items.map (relabel old new)) else
      (.refused, items)

/-- Answers to changes that are made one after the other, and what they lead to. -/
def answers {σ : Type} (change : σ → Change α → Answer α × σ) (start : σ) : List (Change α) → List (Answer α) × σ
  | [] => ([], start)
  | first :: rest =>
    let (answer, next) := change start first
    let (later, last) := answers change next rest
    (answer :: later, last)

/-- All that can be asked of a trie is told by a list of names and values. -/
structure Tells (t : NameTrie α) (items : List (String × α)) : Prop where
  toList : t.toList = items
  values : t.values = items.map (·.2)
  size : t.size = items.length
  isEmpty : t.isEmpty = items.isEmpty
  contains : ∀ name, t.contains name = items.any (·.1 == name)
  get? : ∀ name, t.get? name = (items.find? (·.1 == name)).map (·.2)
  findByStart : ∀ start, t.findByStart start = (items.filter (start.toList.isPrefixOf ·.1.toList)).map (·.2)
  collected : ∀ start, t.findByStart start = (t.placesBelow start).mergeSort.filterMap t.valueAt?

theorem Ruled.tells (ruled : t.Ruled) : t.Tells t.toList where
  toList := rfl
  values := rfl
  size := ruled.size.trans (by simp [NameTrie.values])
  isEmpty := by
    have size : t.size = t.toList.length := ruled.size.trans (by simp [NameTrie.values])
    rw [NameTrie.isEmpty, size, Bool.eq_iff_iff, beq_iff_eq, List.length_eq_zero_iff, List.isEmpty_iff]
  contains := ruled.contains_eq
  get? := ruled.get?_eq
  findByStart := ruled.findByStart_eq
  collected := ruled.findByStart_sorted

/-- One change does to the trie what it does to the list. -/
theorem Ruled.change (ruled : t.Ruled) (asked : Change α) :
    (t.change asked).2.Ruled ∧ (t.change asked).1 = (changeList t.toList asked).1 ∧
      (t.change asked).2.toList = (changeList t.toList asked).2 := by
  cases asked with
  | insert name value =>
    simp only [NameTrie.change, changeList, NameTrie.insert?, ← ruled.contains_eq]
    split_ifs
    · exact ⟨ruled, rfl, rfl⟩
    · exact ⟨ruled.insertAgain name value, rfl, toList_insertAgain t name value⟩
  | insertAgain name value => exact ⟨ruled.insertAgain name value, rfl, toList_insertAgain t name value⟩
  | remove name =>
    exact ⟨ruled.remove name, congrArg Answer.removed (ruled.removed name), (ruled.toIndexed.remove name).2⟩
  | rename old new =>
    simp only [NameTrie.change, changeList, ← ruled.rename?_isSome]
    cases done : t.rename? old new with
    | none => exact ⟨ruled, rfl, rfl⟩
    | some t' => exact ⟨ruled.rename? done, rfl, (ruled.toIndexed.rename? done).2.1⟩

theorem Ruled.answers (changes : List (Change α)) : ∀ {t : NameTrie α}, t.Ruled →
    (answers NameTrie.change t changes).2.Ruled ∧
    (answers NameTrie.change t changes).1 = (answers changeList t.toList changes).1 ∧
      (answers NameTrie.change t changes).2.toList = (answers changeList t.toList changes).2 := by
  induction changes with
  | nil => exact fun ruled => ⟨ruled, rfl, rfl⟩
  | cons first rest ih =>
    intro t ruled
    obtain ⟨ruled', answer, listed⟩ := ruled.change first
    obtain ⟨last, later, left⟩ := ih ruled'
    rw [listed] at later left
    exact ⟨last, congrArg₂ List.cons answer later, left⟩

/-- Whatever changes are made, a trie answers them as the list of its names and values does, and shows that list. -/
theorem changes_listed (changes : List (Change α)) :
    (answers change {} changes).1 = (answers changeList [] changes).1 ∧
      (answers change {} changes).2.Tells (answers changeList [] changes).2 := by
  obtain ⟨ruled, same, listed⟩ := Ruled.answers changes (t := {}) ruled_empty
  exact ⟨same, listed ▸ ruled.tells⟩

/-- A name that is repeated is renamed and removed as a whole, in its place. -/
example : (answers changeList [] [.insertAgain "$" 1, .insert "$a" 2, .insertAgain "$" 3, .rename "$" "$b",
    .insert "$a" 4, .remove "$b"]).1 =
    [.done, .done, .done, .done, .refused, .removed [1, 3]] := by decide

end YaraRules.NameTrie
