import Mathlib.Data.List.Basic
import YaraRules.NameTrie

/-! Places that names lead to, and the values of a trie in the order in which they were added. -/

namespace YaraRules

namespace NameTrie

variable {α : Type} (t : NameTrie α) (f : α → α)

/-! ### Places -/

/-- Places at the node that a name leads to. -/
def Node.placesAt (node : Node) (name : List Char) : List Nat := ((node.find? name).map Node.places).getD []

theorem placesOf_eq (name : String) : t.placesOf name = t.root.placesAt name.toList := by
  unfold placesOf Node.placesAt
  cases t.root.find? name.toList <;> rfl

theorem Node.placesAt_empty : ∀ name, Node.empty.placesAt name = []
  | [] => rfl
  | _ :: _ => rfl

theorem Node.placesAt_cons (node : Node) (c : Char) (name : List Char) :
    node.placesAt (c :: name) = ((node.children.lookup c).getD .empty).placesAt name := by
  unfold placesAt
  rw [find?]
  cases node.children.lookup c with
  | none => exact (Node.placesAt_empty name).symm
  | some child => rfl

private theorem lookup_cons_ite (c d : Char) (child : Node) (rest : List (Char × Node)) :
    ((c, child) :: rest).lookup d = if d = c then some child else rest.lookup d := by
  rw [List.lookup_cons]
  by_cases same : d = c
  · simp [same]
  · simp [same, show (d == c) = false by simpa using same]

private theorem Node.lookup_putChild (c d : Char) (child : Node) (children : List (Char × Node)) :
    (putChild c child children).lookup d = if d = c then some child else children.lookup d := by
  induction children with
  | nil => exact lookup_cons_ite c d child []
  | cons entry rest later =>
    obtain ⟨e, other⟩ := entry
    rw [putChild]
    split_ifs with here same same
    · rw [lookup_cons_ite, if_pos (same.trans (beq_iff_eq.mp here).symm)]
    · rw [lookup_cons_ite, lookup_cons_ite, if_neg fun other => same (other.trans (beq_iff_eq.mp here)),
        if_neg fun other => same (other.trans (beq_iff_eq.mp here))]
    · have apart : d ≠ e := fun other => here (beq_iff_eq.mpr (other.symm.trans same))
      rw [lookup_cons_ite, if_neg apart, later, if_pos same]
    · rw [lookup_cons_ite, lookup_cons_ite, later, if_neg same]

theorem Node.placesAt_update (f : List Nat → List Nat) : ∀ (node : Node) (name other : List Char),
    (node.update f name).placesAt other = if other = name then f (node.placesAt name) else node.placesAt other
  | .mk places children, [], [] => rfl
  | .mk places children, [], d :: other => by
    rw [if_neg (by simp), update, placesAt_cons, placesAt_cons]
    rfl
  | .mk places children, c :: name, [] => rfl
  | .mk places children, c :: name, d :: other => by
    have child : (update f (mk places children) (c :: name)).children.lookup d =
        if d = c then some (update f ((children.lookup c).getD empty) name) else children.lookup d :=
      lookup_putChild c d _ children
    rw [placesAt_cons, placesAt_cons, placesAt_cons, child]
    by_cases same : d = c
    · subst same
      rw [if_pos rfl, Option.getD_some, placesAt_update f _ name other]
      simp [Node.children]
    · rw [if_neg same, if_neg fun equal => same (List.cons.inj equal).1]
      rfl

theorem placesOf_insertAgain (name other : String) (value : α) :
    (t.insertAgain name value).placesOf other =
      if other = name then t.placesOf name ++ [t.items.size] else t.placesOf other := by
  rw [placesOf_eq, placesOf_eq, placesOf_eq, insertAgain, Node.placesAt_update]
  simp only [String.toList_inj]

variable {t}

/-! ### Values in order -/

/-- Items are taken out of a list one after the other. -/
inductive Drops {β : Type} : List β → List β → List β → Prop
  | done (rest : List β) : Drops rest [] rest
  | step {front back removed rest : List β} {item : β} (later : Drops (front ++ back) removed rest) :
    Drops (front ++ item :: back) (item :: removed) rest

/-- Values among items. -/
def valuesOf (items : List (Option (String × α))) : List α := (items.filterMap id).map (·.2)

private theorem values_eq (t : NameTrie α) : t.values = valuesOf t.items.toList := rfl

private theorem valuesOf_append (front back : List (Option (String × α))) :
    valuesOf (front ++ back) = valuesOf front ++ valuesOf back := by
  simp [valuesOf]

private theorem toList_foldl_modify (g : Option (String × α) → Option (String × α)) (places : List Nat)
    (items : Array (Option (String × α))) :
    (places.foldl (fun items place => items.modify place g) items).toList =
      places.foldl (fun items place => items.modify place g) items.toList := by
  induction places generalizing items with
  | nil => rfl
  | cons place rest ih => simp [ih]

theorem getElem?_foldl_modify (g : Option (String × α) → Option (String × α)) (twice : ∀ item, g (g item) = g item)
    (places : List Nat) (items : Array (Option (String × α))) (place : Nat) :
    (places.foldl (fun items place => items.modify place g) items)[place]? =
      if place ∈ places then (items[place]?).map g else items[place]? := by
  induction places generalizing items with
  | nil => simp
  | cons first rest ih =>
    rw [List.foldl_cons, ih, Array.getElem?_modify]
    by_cases here : first = place
    · subst here
      by_cases again : first ∈ rest <;> cases items[first]? <;> simp [again, twice]
    · simp [here, Ne.symm here]

theorem toList_insertAgain (t : NameTrie α) (name : String) (value : α) :
    (t.insertAgain name value).toList = t.toList ++ [(name, value)] := by
  simp [toList, insertAgain]

theorem values_insertAgain (t : NameTrie α) (name : String) (value : α) :
    (t.insertAgain name value).values = t.values ++ [value] := by
  simp [values, toList_insertAgain]

theorem values_mapValues (t : NameTrie α) (f : α → α) : (t.mapValues f).values = t.values.map f := by
  simp only [values, toList, mapValues, Array.toList_map, List.filterMap_map, List.map_filterMap]
  refine List.filterMap_congr fun item _ => ?_
  cases item <;> rfl

/-- Each place is listed once and holds a value of the name that it is listed under. -/
structure Neat (t : NameTrie α) : Prop where
  size : t.size = t.values.length
  once : ∀ name, (t.placesOf name).Nodup
  filed : ∀ name, ∀ place ∈ t.placesOf name, ∃ value, t.items[place]? = some (some (name, value))

theorem neat_empty : ({} : NameTrie α).Neat := by
  have nothing (name : String) : ({} : NameTrie α).placesOf name = [] := by
    rw [placesOf_eq, show ({} : NameTrie α).root = .empty from rfl, Node.placesAt_empty]
  exact ⟨rfl, by simp [nothing], by simp [nothing]⟩

theorem Neat.values_of_isEmpty (neat : t.Neat) (empty : t.isEmpty) : t.values = [] :=
  List.eq_nil_of_length_eq_zero (neat.size.symm.trans (beq_iff_eq.mp empty))

theorem Neat.insertAgain (neat : t.Neat) (name : String) (value : α) : (t.insertAgain name value).Neat := by
  have bound {other : String} {place : Nat} (member : place ∈ t.placesOf other) : place < t.items.size := by
    obtain ⟨_, found⟩ := neat.filed other place member
    exact (Array.getElem?_eq_some_iff.mp found).1
  have kept {other : String} {place : Nat} (member : place ∈ t.placesOf other) :
      (t.insertAgain name value).items[place]? = t.items[place]? := by
    simp only [NameTrie.insertAgain, Array.getElem?_push]
    exact if_neg (Nat.ne_of_lt (bound member))
  refine ⟨?_, fun other => ?_, fun other place member => ?_⟩
  · rw [values_insertAgain, List.length_append, ← neat.size]
    rfl
  · rw [placesOf_insertAgain]
    split_ifs
    · refine List.nodup_append.mpr ⟨neat.once name, by simp, fun place member last listed => ?_⟩
      exact Nat.ne_of_lt (List.mem_singleton.mp listed ▸ bound member)
    · exact neat.once other
  · rw [placesOf_insertAgain] at member
    split_ifs at member with same
    · rcases List.mem_append.mp member with old | new
      · exact kept old ▸ same ▸ neat.filed name place old
      · rw [List.mem_singleton.mp new, same]
        exact ⟨value, by simp [NameTrie.insertAgain]⟩
    · exact kept member ▸ neat.filed other place member

theorem Neat.mapValues (neat : t.Neat) (f : α → α) : (t.mapValues f).Neat := by
  refine ⟨?_, neat.once, fun name place member => ?_⟩
  · rw [values_mapValues, List.length_map]
    exact neat.size
  · obtain ⟨value, found⟩ := neat.filed name place member
    exact ⟨f value, by simp [NameTrie.mapValues, found]⟩

theorem Drops.perm {β : Type} {items removed kept : List β} (drops : Drops items removed kept) :
    items.Perm (removed ++ kept) := by
  induction drops with
  | done => exact .refl _
  | step _ ih => exact List.perm_middle.trans (ih.cons _)

theorem Drops.length {β : Type} {items removed kept : List β} (drops : Drops items removed kept) :
    items.length = removed.length + kept.length := by
  rw [drops.perm.length_eq, List.length_append]

private theorem drops_places (places : List Nat) (items : List (Option (String × α))) (nodup : places.Nodup)
    (bound : ∀ place ∈ places, place < items.length) :
    Drops (valuesOf items) (places.filterMap fun place => (items[place]?).join.map (·.2))
      (valuesOf (places.foldl (fun items place => items.modify place fun _ => none) items)) := by
  induction places generalizing items with
  | nil => exact .done _
  | cons place rest ih =>
    obtain ⟨fresh, others⟩ := List.nodup_cons.mp nodup
    have inside := bound place (by simp)
    have later := ih (items.modify place fun _ => none) others fun other member => by
      simpa using bound other (by simp [member])
    have same : rest.filterMap (fun other => ((items.modify place fun _ => none)[other]?).join.map (·.2)) =
        rest.filterMap fun other => (items[other]?).join.map (·.2) := by
      refine List.filterMap_congr fun other member => ?_
      have apart : place ≠ other := fun equal => fresh (equal ▸ member)
      simp [apart]
    rw [same] at later
    rw [List.foldl_cons]
    have before : valuesOf items =
        valuesOf (items.take place) ++ (items[place].toList.map (·.2) ++ valuesOf (items.drop (place + 1))) := by
      conv_lhs => rw [← List.take_append_drop place items, List.drop_eq_getElem_cons inside, valuesOf_append]
      cases items[place] <;> rfl
    have after : valuesOf (items.modify place fun _ => none) =
        valuesOf (items.take place) ++ valuesOf (items.drop (place + 1)) := by
      rw [List.modify_eq_take_cons_drop inside, valuesOf_append]
      rfl
    rw [after] at later
    have found : items[place]? = some items[place] := List.getElem?_eq_getElem inside
    cases item : items[place] with
    | none =>
      rw [List.filterMap_cons_none (by simp [found, item]), before, item]
      exact later
    | some pair =>
      rw [List.filterMap_cons_some (by simp [found, item]; rfl), before, item]
      exact .step later

/-- Removing a name takes its values out one by one. -/
theorem Neat.remove (neat : t.Neat) (name : String) :
    Drops t.values (t.remove name).1 (t.remove name).2.values ∧ (t.remove name).2.Neat := by
  unfold NameTrie.remove
  cases found : t.root.find? name.toList with
  | none => exact ⟨.done _, neat⟩
  | some node =>
    have places : t.placesOf name = node.places := by simp [placesOf, found]
    have filed : ∀ place ∈ node.places, ∃ value, t.items[place]? = some (some (name, value)) :=
      places ▸ neat.filed name
    have bound (place : Nat) (member : place ∈ node.places) : place < t.items.toList.length := by
      obtain ⟨_, held⟩ := filed place member
      exact (Array.getElem?_eq_some_iff.mp held).1
    have dropped := drops_places node.places t.items.toList (places ▸ neat.once name) bound
    rw [← toList_foldl_modify] at dropped
    simp only [Array.getElem?_toList] at dropped
    refine ⟨dropped, ?_, fun other => ?_, fun other place member => ?_⟩
    · have all : (node.places.filterMap fun place => (t.items[place]?).join.map (·.2)).length = node.places.length := by
        refine List.filterMap_length_eq_length.mpr fun place member => ?_
        obtain ⟨value, held⟩ := filed place member
        simp [held]
      have total := dropped.length
      rw [all, ← values_eq, ← neat.size] at total
      rw [values_eq]
      simp only
      omega
    · rw [placesOf_eq, Node.placesAt_update]
      split_ifs
      · exact List.nodup_nil
      · exact placesOf_eq t other ▸ neat.once other
    · rw [placesOf_eq, Node.placesAt_update] at member
      split_ifs at member with same
      · cases member
      · rw [← placesOf_eq] at member
        obtain ⟨value, held⟩ := neat.filed other place member
        have apart : place ∉ node.places := fun listed => by
          obtain ⟨_, taken⟩ := filed place listed
          rw [held] at taken
          simp only [Option.some.injEq, Prod.mk.injEq] at taken
          exact same (congrArg String.toList taken.1)
        refine ⟨value, (getElem?_foldl_modify (fun _ => none) (fun _ => rfl) node.places t.items place).trans ?_⟩
        rw [if_neg apart, held]

private theorem valuesOf_rename (new : String) : ∀ (items : List (Option (String × α))) (place : Nat),
    valuesOf (items.modify place (Option.map fun (_, value) => (new, value))) = valuesOf items
  | [], _ => by simp
  | item :: rest, 0 => by cases item <;> rfl
  | item :: rest, place + 1 => by
    rw [List.modify_succ_cons, ← List.singleton_append, valuesOf_append, valuesOf_rename new rest place,
      ← valuesOf_append, List.singleton_append]

private theorem valuesOf_renames (new : String) (places : List Nat) (items : Array (Option (String × α))) :
    valuesOf (places.foldl (fun items place =>
    items.modify place (Option.map fun (_, value) => (new, value))) items).toList =
      valuesOf items.toList := by
  rw [toList_foldl_modify]
  generalize items.toList = items
  induction places generalizing items with
  | nil => rfl
  | cons place rest ih => rw [List.foldl_cons, ih, valuesOf_rename]

theorem values_rename? {old new : String} {t' : NameTrie α} (done : t.rename? old new = some t') :
    t'.values = t.values := by
  unfold NameTrie.rename? at done
  split_ifs at done
  split at done
  · cases done
  · obtain rfl := Option.some.inj done
    exact valuesOf_renames new _ _

/-- Another name changes neither the values nor their order. -/
theorem Neat.rename? (neat : t.Neat) {old new : String} {t' : NameTrie α} (done : t.rename? old new = some t') :
    t'.values = t.values ∧ t'.Neat := by
  refine ⟨values_rename? done, ?_⟩
  unfold NameTrie.rename? at done
  split_ifs at done with taken
  cases listed : t.placesOf old with
  | nil => simp [listed] at done
  | cons place rest =>
    rw [listed] at done
    obtain rfl := Option.some.inj done
    refine ⟨neat.size.trans (congrArg List.length (valuesOf_renames new _ _).symm), fun other =>
      ?_, fun other at_ member => ?_⟩
    · rw [placesOf_eq, Node.placesAt_update, Node.placesAt_update]
      split_ifs
      · exact listed ▸ neat.once old
      · simp
      · exact placesOf_eq t other ▸ neat.once other
    · rw [placesOf_eq, Node.placesAt_update, Node.placesAt_update] at member
      rw [getElem?_foldl_modify _ (fun item => by cases item <;> rfl)]
      split_ifs at member with same gone
      · obtain ⟨value, held⟩ := neat.filed old at_ (listed ▸ member)
        exact ⟨value, by simp [member, held, String.toList_inj.mp same]⟩
      · cases member
      · rw [← placesOf_eq] at member
        obtain ⟨value, held⟩ := neat.filed other at_ member
        have apart : at_ ∉ place :: rest := fun inside => by
          obtain ⟨_, other_held⟩ := neat.filed old at_ (listed ▸ inside)
          rw [held] at other_held
          simp only [Option.some.injEq, Prod.mk.injEq] at other_held
          exact gone (congrArg String.toList other_held.1)
        exact ⟨value, by rw [if_neg apart, held]⟩

/-! ### Names by their beginning -/

mutual

/-- Every place below a node goes with the name that leads to it. -/
def Node.Under (goes : List Char → Nat → Prop) (path : List Char) : Node → Prop
  | mk places children => (∀ place ∈ places, goes path place) ∧ UnderAmong goes path children

def Node.UnderAmong (goes : List Char → Nat → Prop) (path : List Char) : List (Char × Node) → Prop
  | [] => True
  | (c, child) :: rest => child.Under goes (path ++ [c]) ∧ UnderAmong goes path rest

end

section

variable {goes more : List Char → Nat → Prop}

mutual

theorem Node.Under.mono (wider : ∀ name place, goes name place → more name place) {path : List Char} : ∀ {node : Node},
    node.Under goes path → node.Under more path
  | mk _ _, ⟨here, below⟩ => ⟨fun place member => wider _ place (here place member), UnderAmong.mono wider below⟩

theorem Node.UnderAmong.mono (wider : ∀ name place, goes name place → more name place) {path : List Char} :
    ∀ {children : List (Char × Node)}, UnderAmong goes path children → UnderAmong more path children
  | [], _ => trivial
  | (_, _) :: _, ⟨first, rest⟩ => ⟨first.mono wider, UnderAmong.mono wider rest⟩

end

mutual

theorem Node.Under.allPlaces {path : List Char} : ∀ {node : Node}, node.Under goes path → ∀ place ∈ node.allPlaces,
    ∃ name, path <+: name ∧ goes name place
  | mk places children, ⟨here, below⟩, place, member => by
    rcases List.mem_append.mp member with own | deeper
    · exact ⟨path, List.prefix_refl _, here place own⟩
    · exact UnderAmong.allPlaces below place deeper

theorem Node.UnderAmong.allPlaces {path : List Char} :
    ∀ {children : List (Char × Node)}, UnderAmong goes path children →
    ∀ place ∈ allPlacesBelow children, ∃ name, path <+: name ∧ goes name place
  | (c, child) :: rest, ⟨first, later⟩, place, member => by
    rcases List.mem_append.mp member with own | other
    · obtain ⟨name, longer, held⟩ := first.allPlaces place own
      exact ⟨name, (List.prefix_append path [c]).trans longer, held⟩
    · exact UnderAmong.allPlaces later place other

end

theorem Node.UnderAmong.lookup {path : List Char} {c : Char} {child : Node} : ∀ {children : List (Char × Node)},
    UnderAmong goes path children → children.lookup c = some child → child.Under goes (path ++ [c])
  | (d, other) :: rest, ⟨first, later⟩, found => by
    rw [lookup_cons_ite] at found
    split_ifs at found with same
    · cases found
      exact same ▸ first
    · exact lookup later found

theorem Node.UnderAmong.putChild {path : List Char} {c : Char} {child : Node} (fits : child.Under goes (path ++ [c])) :
    ∀ {children : List (Char × Node)}, UnderAmong goes path children → UnderAmong goes path (putChild c child children)
  | [], _ => ⟨fits, trivial⟩
  | (d, other) :: rest, ⟨first, later⟩ => by
    unfold Node.putChild
    split_ifs with same
    · exact ⟨beq_iff_eq.mp same ▸ fits, later⟩
    · exact ⟨first, putChild fits later⟩

theorem Node.Under.find? : ∀ {node found : Node}
    {path name : List Char}, node.Under goes path → node.find? name = some found →
    found.Under goes (path ++ name)
  | _, _, path, [], under, done => by
    cases done
    simpa using under
  | mk places children, found, path, c :: name, ⟨_, below⟩, done => by
    unfold Node.find? at done
    split at done
    next child listed => simpa using Under.find? (below.lookup listed) done
    next => cases done

theorem Node.Under.update {f : List Nat → List Nat} : ∀ {node : Node} {path name : List Char}, node.Under goes path →
    (∀ places, (∀ place ∈ places, goes (path ++ name) place) → ∀ place ∈ f places, goes (path ++ name) place) →
    (node.update f name).Under goes path
  | mk places children, path, [], ⟨here, below⟩, kept => ⟨by simpa using kept places (by simpa using here), below⟩
  | mk places children, path, c :: name, ⟨here, below⟩, kept => by
    refine ⟨here, below.putChild (Under.update ?_ (by simpa using kept))⟩
    cases listed : children.lookup c with
    | none => exact ⟨nofun, trivial⟩
    | some child => exact below.lookup listed

end

/-- The places in the tree lead to items of the names that they stand for. -/
def Labeled (t : NameTrie α) : Prop :=
  t.root.Under (fun name place => ∃ value, t.items[place]? = some (some (String.ofList name, value))) []

theorem labeled_empty : ({} : NameTrie α).Labeled := ⟨nofun, trivial⟩

theorem Labeled.insertAgain {t : NameTrie α} (labeled : t.Labeled) (name : String) (value : α) :
    (t.insertAgain name value).Labeled := by
  have before : t.root.Under (fun path place =>
      ∃ value', (t.insertAgain name value).items[place]? = some (some (String.ofList path, value'))) [] :=
    labeled.mono fun path place ⟨value', held⟩ => ⟨value', by
      have small := (Array.getElem?_eq_some_iff.mp held).1
      rw [NameTrie.insertAgain, Array.getElem?_push, if_neg (Nat.ne_of_lt small), held]⟩
  refine before.update fun places here place member => ?_
  rcases List.mem_append.mp member with old | new
  · exact here place old
  · obtain rfl := List.mem_singleton.mp new
    exact ⟨value, by simp [NameTrie.insertAgain]⟩

theorem mem_toList_of_item {t : NameTrie α} {place : Nat} {item : String × α}
    (held : t.items[place]? = some (some item)) : item ∈ t.toList :=
  List.mem_filterMap.mpr ⟨some item, Array.mem_toList_iff.mpr (Array.mem_of_getElem? held), rfl⟩

theorem Labeled.get? {t : NameTrie α} (labeled : t.Labeled) {name : String} {value : α}
    (found : t.get? name = some value) : (name, value) ∈ t.toList := by
  obtain ⟨place, first, held⟩ := Option.bind_eq_some_iff.mp found
  unfold placesOf at first
  split at first
  next node reached =>
    have here : place ∈ node.places := List.mem_of_head? first
    obtain ⟨value', item⟩ : ∃ value', t.items[place]? = some (some (name, value')) := by
      cases node with
      | mk places children => simpa using (Node.Under.find? labeled reached).1 place here
    obtain rfl : value' = value := by simpa [valueAt?, item] using held
    exact mem_toList_of_item item
  next => cases first

theorem Labeled.findByStart {t : NameTrie α} (labeled : t.Labeled) {start : String} {value : α}
    (found : value ∈ t.findByStart start) : ∃ name, start.toList <+: name.toList ∧ (name, value) ∈ t.toList := by
  unfold NameTrie.findByStart at found
  split at found
  next node reached =>
    obtain ⟨place, member, held⟩ := List.mem_filterMap.mp found
    have below : place ∈ node.allPlaces := by simpa using (List.mem_filter.mp member).2
    obtain ⟨name, longer, value', item⟩ := (Node.Under.find? labeled reached).allPlaces place below
    obtain rfl : value' = value := by simpa [valueAt?, item] using held
    exact ⟨String.ofList name, by simpa using longer, mem_toList_of_item item⟩
  next => cases found

end NameTrie

end YaraRules
