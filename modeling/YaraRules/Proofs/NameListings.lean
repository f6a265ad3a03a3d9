import Mathlib.Data.List.Nodup
import YaraRules.Proofs.NameTries

/-! Names and values of a trie in order. The tree leads to the items of a name and to all of
them, so what is removed or renamed can be read off the list of items. -/

namespace YaraRules.NameTrie

variable {α β : Type} {t t' : NameTrie α} {name old new : String}

theorem mem_toList {item : String × α} : item ∈ t.toList ↔ ∃ place : Nat, t.items[place]? = some (some item) := by
  constructor
  · intro member
    obtain ⟨held, inside, same⟩ := List.mem_filterMap.mp member
    obtain rfl : held = some item := same
    obtain ⟨place, small, found⟩ := Array.mem_iff_getElem.mp (Array.mem_toList_iff.mp inside)
    exact ⟨place, Array.getElem?_eq_some_iff.mpr ⟨small, found⟩⟩
  · rintro ⟨place, held⟩
    exact mem_toList_of_item held

theorem toList_mapValues (f : α → α) (t : NameTrie α) :
    (t.mapValues f).toList = t.toList.map fun item => (item.1, f item.2) := by
  simp only [toList, mapValues, Array.toList_map, List.filterMap_map, List.map_filterMap]
  refine List.filterMap_congr fun item _ => ?_
  cases item <;> rfl

/-- The item with another name if it has the old one. -/
def relabel (old new : String) (item : String × α) : String × α := if item.1 = old then (new, item.2) else item

/-- The places of a name are those of its items, each once. -/
structure Indexed (t : NameTrie α) : Prop extends t.Neat where
  found : ∀ place name value, t.items[place]? = some (some (name, value)) → place ∈ t.placesOf name

theorem indexed_empty : ({} : NameTrie α).Indexed where
  toNeat := neat_empty
  found place name value held := by simp at held

namespace Indexed

variable (indexed : t.Indexed)
include indexed

theorem mem_placesOf {place : Nat} {item : String × α} (held : t.items[place]? = some (some item)) :
    place ∈ t.placesOf name ↔ item.1 = name := by
  constructor
  · intro listed
    obtain ⟨value, there⟩ := indexed.filed name place listed
    rw [held] at there
    exact congrArg (·.1) (Option.some.inj (Option.some.inj there))
  · rintro rfl
    exact indexed.found place item.1 item.2 held

theorem get?_mem {value : α} (got : t.get? name = some value) : (name, value) ∈ t.toList := by
  obtain ⟨place, first, held⟩ := Option.bind_eq_some_iff.mp got
  obtain ⟨value', there⟩ := indexed.filed name place (List.mem_of_head? first)
  obtain rfl : value' = value := by simpa [valueAt?, there] using held
  exact mem_toList_of_item there

theorem contains_iff : t.contains name = true ↔ name ∈ t.toList.map (·.1) := by
  constructor
  · intro taken
    obtain ⟨value, got⟩ := Option.isSome_iff_exists.mp taken
    exact List.mem_map.mpr ⟨_, indexed.get?_mem got, rfl⟩
  · intro listed
    obtain ⟨item, member, rfl⟩ := List.mem_map.mp listed
    obtain ⟨place, held⟩ := mem_toList.mp member
    have listed := (indexed.mem_placesOf held).mpr rfl
    obtain ⟨first, begins⟩ : ∃ first, (t.placesOf item.1).head? = some first :=
      ⟨_, List.head?_eq_some_head (List.ne_nil_of_mem listed)⟩
    obtain ⟨value, there⟩ := indexed.filed item.1 first (List.mem_of_head? begins)
    have got : t.get? item.1 = some value := by
      show ((t.placesOf item.1).head?.bind t.valueAt?) = _
      simp [begins, valueAt?, there]
    simp [contains, got]

theorem places_nil (free : t.contains name = false) : t.placesOf name = [] := by
  refine List.eq_nil_iff_forall_not_mem.mpr fun place listed => ?_
  obtain ⟨value, held⟩ := indexed.filed name place listed
  have taken := indexed.contains_iff.mpr (List.mem_map.mpr ⟨_, mem_toList_of_item held, rfl⟩)
  simp [free] at taken

theorem insertAgain (name : String) (value : α) : (t.insertAgain name value).Indexed where
  toNeat := indexed.toNeat.insertAgain name value
  found place other held there := by
    rw [placesOf_insertAgain]
    simp only [NameTrie.insertAgain, Array.getElem?_push] at there
    split_ifs at there with last
    · obtain ⟨rfl, rfl⟩ : name = other ∧ value = held := by simpa using there
      simp [last]
    · have listed := indexed.found place other held there
      split_ifs with same
      · exact List.mem_append_left _ (same ▸ listed)
      · exact listed

theorem mapValues (f : α → α) : (t.mapValues f).Indexed where
  toNeat := indexed.toNeat.mapValues f
  found place name value there := by
    show place ∈ t.placesOf name
    simp only [NameTrie.mapValues, Array.getElem?_map, Option.map_eq_some_iff] at there
    obtain ⟨held, found, ⟨item, _⟩, rfl, same⟩ := there
    obtain ⟨rfl, _⟩ := Prod.mk.inj same
    exact indexed.found place _ _ found

private theorem items_foldl (name : String) {g : Option (String × α) → Option (String × α)}
    (twice : ∀ item, g (g item) = g item) (place : Nat) :
    ((t.placesOf name).foldl (fun items place => items.modify place g) t.items)[place]? =
      (t.items[place]?).map fun held => if held.any (·.1 == name) then g held else held := by
  rw [getElem?_foldl_modify g twice]
  cases there : t.items[place]? with
  | none => simp
  | some held =>
    cases held with
    | none =>
      have absent : place ∉ t.placesOf name := fun listed => by
        obtain ⟨_, held⟩ := indexed.filed name place listed
        simp [there] at held
      simp [absent]
    | some item => by_cases same : item.1 = name <;> simp [indexed.mem_placesOf there, same]

private theorem toList_foldl {g : Option (String × α) → Option (String × α)} (twice : ∀ item, g (g item) = g item) :
    ((t.placesOf name).foldl (fun items place => items.modify place g) t.items).toList.filterMap id =
      t.items.toList.filterMap fun held => if held.any (·.1 == name) then g held else held := by
  have same : (t.placesOf name).foldl (fun items place => items.modify place g) t.items =
      t.items.map fun held => if held.any (·.1 == name) then g held else held := by
    refine Array.ext_getElem? fun place => ?_
    rw [indexed.items_foldl name twice, Array.getElem?_map]
  rw [same, Array.toList_map, List.filterMap_map]
  rfl

/-! ### Removed and renamed -/

theorem remove (name : String) : (t.remove name).2.Indexed ∧
    (t.remove name).2.toList = t.toList.filter (·.1 != name) := by
  unfold NameTrie.remove
  cases reached : t.root.find? name.toList with
  | none =>
    have nothing : t.placesOf name = [] := by simp [placesOf, reached]
    refine ⟨indexed, (List.filter_eq_self.mpr fun item member => ?_).symm⟩
    obtain ⟨place, held⟩ := mem_toList.mp member
    have apart : item.1 ≠ name := fun same => by simpa [nothing] using (indexed.mem_placesOf held).mpr same
    simpa using apart
  | some node =>
    have places : node.places = t.placesOf name := by simp [placesOf, reached]
    have neat := (indexed.toNeat.remove name).2
    simp only [NameTrie.remove, reached, places] at neat ⊢
    refine ⟨⟨neat, fun place other value held => ?_⟩, ?_⟩
    · have items := indexed.items_foldl name (g := fun _ => none) (fun _ => rfl) place
      simp only at held
      rw [items] at held
      obtain ⟨item, there, kept⟩ := Option.map_eq_some_iff.mp held
      split_ifs at kept with chosen
      obtain rfl : item = some (other, value) := kept
      have apart : other.toList ≠ name.toList := by simpa [String.toList_inj] using chosen
      rw [placesOf_eq, Node.placesAt_update, if_neg apart, ← placesOf_eq]
      exact indexed.found place other value there
    · show ((t.placesOf name).foldl _ t.items).toList.filterMap id = _
      rw [indexed.toList_foldl (g := fun _ => none) fun _ => rfl, toList, List.filter_filterMap]
      refine List.filterMap_congr fun held _ => ?_
      cases held with
      | none => rfl
      | some item => by_cases same : item.1 = name <;> simp [same, Option.filter]

theorem rename? (done : t.rename? old new = some t') : t'.Indexed ∧ t'.toList = t.toList.map (relabel old new) ∧
    t'.get? new = t.get? old ∧ t'.get? old = none := by
  obtain ⟨_, neat⟩ := indexed.toNeat.rename? done
  unfold NameTrie.rename? at done
  split_ifs at done with taken
  have free : t.contains new = false := by simpa using taken
  cases listed : t.placesOf old with
  | nil => simp [listed] at done
  | cons first rest =>
    rw [listed] at done
    have apart : new ≠ old := by
      rintro rfl
      simp [indexed.places_nil free] at listed
    have places (name : String) : t'.placesOf name = if name = new then t.placesOf old else if name =
        old then [] else t.placesOf name := by
      obtain rfl := Option.some.inj done
      simp only [placesOf_eq, Node.placesAt_update, String.toList_inj, ← listed]
    have twice (item : Option (String × α)) : Option.map (fun item => (new, item.2))
      (Option.map (fun item => (new, item.2)) item) =
        Option.map (fun item => (new, item.2)) item := by cases item <;> rfl
    have items (place : Nat) : t'.items[place]? = (t.items[place]?).map (Option.map (relabel old new)) := by
      obtain rfl := Option.some.inj done
      refine (listed ▸ indexed.items_foldl old twice place).trans (congrArg (Option.map · _) (funext fun held => ?_))
      cases held with
      | none => rfl
      | some item => by_cases same : item.1 = old <;> simp [relabel, same]
    have value (place : Nat) : t'.valueAt? place = t.valueAt? place := by
      unfold valueAt?
      rw [items]
      cases t.items[place]? with
      | none => rfl
      | some held =>
        cases held with
        | none => rfl
        | some item => by_cases same : item.1 = old <;> simp [relabel, same]
    have get (name : String) : t'.get? name = (t'.placesOf name).head?.bind t.valueAt? := by
      rw [← funext value]
      rfl
    refine ⟨⟨neat, fun place name value held => ?_⟩, ?_, ?_, ?_⟩
    · rw [items] at held
      obtain ⟨_, there, kept⟩ := Option.map_eq_some_iff.mp held
      obtain ⟨item, rfl, same⟩ := Option.map_eq_some_iff.mp kept
      have here := indexed.found place item.1 item.2 there
      rw [places]
      unfold relabel at same
      split_ifs at same with old_
      · obtain ⟨rfl, rfl⟩ := Prod.mk.inj same
        rw [if_pos rfl]
        exact old_ ▸ here
      · subst same
        have fresh : name ≠ new := fun taken => by simp [taken, indexed.places_nil free] at here
        rw [if_neg fresh, if_neg old_]
        exact here
    · have all : t'.items = t.items.map (Option.map (relabel old new)) := Array.ext_getElem? fun place => by
        rw [items, Array.getElem?_map]
      simp only [toList, all, Array.toList_map, List.filterMap_map, List.map_filterMap]
      refine List.filterMap_congr fun held _ => ?_
      cases held <;> rfl
    · rw [get, places, if_pos rfl]
      rfl
    · rw [get, places, if_neg apart.symm, if_pos rfl]
      rfl

end Indexed

/-- A name that is there is renamed if the other one is free. -/
theorem rename?_of_free {value : α} (free : t.contains new = false) (got : t.get? old = some value) :
    ∃ t', t.rename? old new = some t' := by
  obtain ⟨place, first, _⟩ := Option.bind_eq_some_iff.mp got
  unfold rename?
  rw [free]
  cases listed : t.placesOf old with
  | nil => simp [listed] at first
  | cons first rest => exact ⟨_, rfl⟩

/-! ### Names that no two values share -/

/-- No two values have the same name, unless it is the one that may be repeated. -/
def Distinct (free : String) (t : NameTrie α) : Prop := ((t.toList.map (·.1)).filter (· != free)).Nodup

namespace Distinct

variable {free : String}

theorem empty : ({} : NameTrie α).Distinct free := List.nodup_nil

theorem same {first second : α} (distinct : t.Distinct free) (here : (name, first) ∈ t.toList)
    (there : (name, second) ∈ t.toList) (kept : name ≠ free) : first = second := by
  unfold Distinct at distinct
  rw [List.filter_map] at distinct
  have listed (value : α) (member : (name, value) ∈ t.toList) : (name, value) ∈ t.toList.filter ((· != free) ∘ (·.1)) :=
    List.mem_filter.mpr ⟨member, by simpa using kept⟩
  exact congrArg (·.2) (List.inj_on_of_nodup_map distinct (listed first here) (listed second there) rfl)

theorem mapValues (distinct : t.Distinct free) (f : α → α) : (t.mapValues f).Distinct free := by
  unfold Distinct
  rw [toList_mapValues, List.map_map]
  exact distinct

theorem insertAgain (distinct : t.Distinct free) (indexed : t.Indexed) (fresh : name = free ∨ t.contains name = false)
    (value : α) : (t.insertAgain name value).Distinct free := by
  unfold Distinct
  rw [toList_insertAgain, List.map_append, List.filter_append]
  refine List.nodup_append.mpr ⟨distinct, (List.pairwise_singleton _ name).filter _, fun other here _ there same => ?_⟩
  obtain ⟨listed, unlike⟩ := List.mem_filter.mp here
  obtain rfl : _ = name := List.mem_singleton.mp (List.mem_filter.mp there).1
  rcases fresh with rfl | fresh
  · simp [same] at unlike
  · simp [indexed.contains_iff.mpr (same ▸ listed)] at fresh

theorem remove (distinct : t.Distinct free) (indexed : t.Indexed) (name : String) :
    (t.remove name).2.Distinct free := by
  unfold Distinct
  rw [(indexed.remove name).2]
  exact distinct.sublist ((List.filter_sublist.map _).filter _)

/-- A name that is renamed takes one that no value had. -/
theorem rename? (distinct : t.Distinct free) (indexed : t.Indexed) (done : t.rename? old new = some t')
    (kept : old ≠ free) : t'.Distinct free := by
  have absent : new ∉ t.toList.map (·.1) := fun listed => by
    simp [NameTrie.rename?, indexed.contains_iff.mpr listed] at done
  have names : t'.toList.map (·.1) = (t.toList.map (·.1)).map fun name => if name = old then new else name := by
    rw [(indexed.rename? done).2.1, List.map_map, List.map_map]
    refine List.map_congr_left fun item _ => ?_
    simp only [Function.comp_apply, relabel]
    split_ifs <;> rfl
  unfold Distinct at distinct ⊢
  rw [names]
  rw [List.filter_map]
  refine List.Nodup.map_on (fun name here other there same =>
    ?_) (distinct.sublist (List.monotone_filter_right _ fun name shown => ?_))
  · have absent (name : String) (here : name ∈ t.toList.map (·.1)) : name ≠ new := fun same => absent (same ▸ here)
    have left := absent name (List.mem_filter.mp here).1
    have right := absent other (List.mem_filter.mp there).1
    grind
  · by_cases same : name = old
    · simpa [same] using kept
    · simpa [same] using shown

end Distinct

end YaraRules.NameTrie
