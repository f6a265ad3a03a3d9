import YaraRules.Proofs.ReadCycles
import YaraRules.Proofs.ReadImports

/-! Tokens that own included files. Only the keyword of a directive comes to own a stream, and
directives are read before a rule or behind it. So no token owns a stream that stands between
the first token of a rule and its last. -/

namespace YaraRules

/-! ### Pairs in lists -/

section

variable {α : Type} {list fewer : List α} {x y z : α}

private theorem pair_of_fewer (once : list.Nodup) (part : fewer.Sublist list) (order : [x, y].Sublist list)
    (held : x ∈ fewer) (held' : y ∈ fewer) : [x, y].Sublist fewer := by
  obtain ⟨ahead, behind, rfl⟩ := List.append_of_mem held
  obtain ⟨front, back, rfl⟩ := List.append_of_mem (part.subset held)
  obtain ⟨early, _⟩ := TokenStream.sublist_around once part
  have late := (TokenStream.sublist_around once (show ([] ++ x :: [y]).Sublist _ from order)).2.subset
    (List.mem_singleton_self y)
  obtain ⟨_, once', apart⟩ := List.nodup_append'.mp once
  rcases List.mem_append.mp held' with here | here
  · exact absurd (List.mem_cons_of_mem x late) (apart (early.subset here))
  rcases List.mem_cons.mp here with rfl | behind
  · exact absurd late (List.nodup_cons.mp once').1
  · exact ((List.singleton_sublist.mpr behind).cons_cons x).trans (List.sublist_append_right _ _)

private theorem pair_trans (once : list.Nodup) (first : [x, y].Sublist list) (second : [y, z].Sublist list) :
    [x, z].Sublist list := by
  obtain ⟨front, back, rfl⟩ := List.append_of_mem (first.subset (by simp : y ∈ _))
  have early := (TokenStream.sublist_around once (show ([x] ++ y :: []).Sublist _ from first)).1
  have late := (TokenStream.sublist_around once (show ([] ++ y :: [z]).Sublist _ from second)).2
  exact early.append (late.trans (List.sublist_cons_self y back))

end

namespace Grammar

variable {l : Ledger} {scene : Scene} {front row : List Handle} {s between inner s' : State} {pieces : List Piece}
  {d : Directive} {h k : Handle}

/-! ### Tokens of the source itself -/

/-- Handles of the source, without those of included files. -/
def State.top (s : State) : List Handle := s.source.tokens.entries.map (·.1)

private theorem InPlace.top_nodup (place : InPlace scene front row s) : s.top.Nodup :=
  place.tidy.sound.chain.handles_nodup

/-- Words that were read of the source itself are there, in order. -/
theorem InPlace.top (place : InPlace scene front row s) (member : h ∈ front ++ row)
    (own : h.chain = s.source.tokens.chain.id) : h ∈ s.top := by
  have read : h ∈ s.source.tokens.code := place.listed.subset (by
    rw [← List.append_assoc]
    exact List.mem_append_left _ member)
  obtain ⟨a, stored, _⟩ := place.tidy.get?_of_code read
  rw [TokenStream.get?_top _ own] at stored
  exact List.mem_map_of_mem (f := (·.1)) ((place.tidy.sound.chain.get?_eq_some _ _).mp stored)

theorem InPlace.before (place : InPlace scene front row s) (own : h.chain = s.source.tokens.chain.id)
    (own' : k.chain = s.source.tokens.chain.id)
    (order : [h, k].Sublist (front ++ (row ++ s.source.rest))) : [h, k].Sublist s.top := by
  have read := place.tidy.read_before (TokenStream.owner?_top own) (own'.trans own.symm) (order.trans place.listed)
  rwa [← TokenStream.handles_view] at read

theorem InPlace.fewer {few : List Handle} (place : InPlace scene front row s) (part : few.Sublist front) :
    InPlace scene few row s :=
  { place with listed := (part.append_right _).trans place.listed }

private theorem State.owner_unique (sound : s.source.tokens.Sound) (held : h ∈ s.top) (held' : k ∈ s.top)
    (same : h.index = k.index) : h = k := by
  obtain ⟨entry, member, rfl⟩ := List.mem_map.mp held
  obtain ⟨entry', member', rfl⟩ := List.mem_map.mp held'
  exact congrArg (·.1) (sound.chain.entry_unique member member' same)

/-! ### Directives and rules -/

/-- Rules of the source itself are among what was read of it. A token that owns a stream stands before them or
behind them, and a token behind that one was read. -/
structure Parted (front : List Handle) (s : State) : Prop where
  own : ∀ h ∈ front, h.chain = s.source.tokens.chain.id
  rows : ∀ rule ∈ s.rules, rule.first.chain = s.source.tokens.chain.id → rule.row ⊆ front
  owners : ∀ index ∈ s.source.tokens.nested.map (·.1), ∃ h,
    h.index = index ∧ (∃ next ∈ front, [h, next].Sublist s.top) ∧
    ∀ rule ∈ s.rules, rule.first.chain = s.source.tokens.chain.id →
      (∀ x ∈ rule.row, [x, h].Sublist s.top) ∨ ∀ x ∈ rule.row, [h, x].Sublist s.top

namespace Parted

variable (parted : Parted front s)
include parted

/-- Tokens change, but each stands where it stood. -/
theorem settle (sound : s.source.tokens.Sound) (settled : Settled s.source.tokens s'.source.tokens)
    (place : InPlace scene front row s') (rules : s'.rules = s.rules) : Parted front s' := by
  have id : s'.source.tokens.chain.id = s.source.tokens.chain.id := TokenStream.id_of_ids (settled.shaped sound).2.1
  have once : s.top.Nodup := sound.chain.handles_nodup
  have order : s'.top.Sublist s.top := settled.order sound
  refine ⟨fun h member => (parted.own h member).trans id.symm,
    by rw [rules, id]; exact parted.rows, fun index nested => ?_⟩
  obtain ⟨h, named, ⟨next, read, follows⟩, apart⟩ := parted.owners index (settled.places sound ▸ nested)
  have held : h ∈ s'.top := by
    obtain ⟨entry, stored, slot⟩ := List.mem_map.mp (place.tidy.sound.placed nested)
    have listed : entry.1 ∈ s'.top := List.mem_map_of_mem stored
    obtain rfl := State.owner_unique sound (order.subset listed) (follows.subset (by simp)) (slot.trans named.symm)
    exact listed
  have known (x : Handle) (member : x ∈ front) : x ∈ s'.top :=
    place.top (List.mem_append_left _ member) ((parted.own x member).trans id.symm)
  refine ⟨h, named, ⟨next, read, pair_of_fewer once order follows held (known next read)⟩, fun rule member own => ?_⟩
  rw [rules] at member
  rw [id] at own
  have inside := parted.rows rule member own
  refine (apart rule member own).imp (fun early x part => ?_) fun late x part => ?_
  · exact pair_of_fewer once order (early x part) (known x (inside part)) held
  · exact pair_of_fewer once order (late x part) held (known x (inside part))

/-- A rule was read behind all that was read before. -/
theorem rule {found : Rule} (place : InPlace scene front found.row s) :
    Parted (front ++ found.row) { s with rules := s.rules ++ [found] } := by
  have own (h : Handle) (member : h ∈ found.row) : h.chain = s.source.tokens.chain.id :=
    (place.chain h (List.mem_append_left _ member)).trans place.id.symm
  refine ⟨fun h member => (List.mem_append.mp member).elim (parted.own h) (own h), fun rule member same =>
    ?_, fun index nested => ?_⟩
  · rcases List.mem_append.mp member with old | new
    · exact List.subset_append_of_subset_left _ (parted.rows rule old same)
    · obtain rfl := List.mem_singleton.mp new
      exact List.subset_append_right _ _
  · obtain ⟨h, named, ⟨next, read, follows⟩, apart⟩ := parted.owners index nested
    refine ⟨h, named, ⟨next, List.mem_append_left _ read, follows⟩, fun rule member same => ?_⟩
    rcases List.mem_append.mp member with old | new
    · exact apart rule old same
    · obtain rfl := List.mem_singleton.mp new
      refine .inr fun x part => pair_trans place.top_nodup follows (place.before (parted.own next read) (own x part) ?_)
      exact (List.singleton_sublist.mpr read).append
        ((List.singleton_sublist.mpr part).trans (List.sublist_append_left _ _))

/-- A directive owns the file that it includes, and the token behind its keyword was read. -/
theorem rejoin {keyword token : Handle} {nextId : ChainId} {strings strings' : NameTrie StringDefinition}
    (place : InPlace scene front [keyword, token] s)
    (below : InPlace (Scene.after ⟨s.nextId, s.nextId + 1, s.imports, s.rules, strings⟩ pieces nextId strings')
    (rowsOf pieces).flatten [] inner) (joined :
    TokenStream.Joined keyword s.source.tokens inner.source.tokens (s.rejoin keyword inner).source.tokens) : (∃ scene',
    InPlace scene' (front ++ [token]) [] (s.rejoin keyword inner)) ∧
    Parted (front ++ [token]) (s.rejoin keyword inner) := by
  obtain ⟨attached, rejoined⟩ := place.rejoin below
  have apart : s.source.tokens.ids.Disjoint inner.source.tokens.ids := fun id here there =>
    Nat.not_lt.mpr (below.ids id there).1 (place.nextId ▸ (place.ids id here).2)
  have own : keyword.chain = s.source.tokens.chain.id := (place.chain keyword (by simp)).trans place.id.symm
  have own' : token.chain = s.source.tokens.chain.id := (place.chain token (by simp)).trans place.id.symm
  have top : (s.rejoin keyword inner).top = s.top := by
    obtain ⟨_, _, _, _, _, _, _, before, after⟩ := place.tidy.sound.attach below.tidy.sound attached
    rw [State.top, State.top, TokenStream.handles_view, TokenStream.handles_view, before, after]
    simp
  constructor
  · obtain ⟨tokens, done, _, _, _, code⟩ := place.tidy.attach below.tidy apart own place.listed
    obtain rfl := Except.ok.inj (attached.symm.trans done)
    exact ⟨_, { rejoined with listed := by simpa using code [] (List.nil_sublist _) }⟩
  -- Rules of the included file have their tokens in other streams.
  have mine (rule : Rule) (member : rule ∈ inner.rules) (same : rule.first.chain = s.source.tokens.chain.id) :
      rule ∈ s.rules := by
    have either : rule ∈ s.rules ++ rulesOf pieces := by
      rw [below.rules] at member
      exact member
    refine (List.mem_append.mp either).resolve_right fun new => apart (same ▸ s.source.tokens.id_mem_ids) ?_
    have listed : rule.row ∈ rowsOf pieces :=
      (rowsOf_perm pieces).mem_iff.mpr (List.mem_append_right _ (List.mem_map_of_mem new))
    have inside : rule.first ∈ (rowsOf pieces).flatten :=
      List.mem_flatten.mpr ⟨_, listed, List.mem_of_head? rule.head?_row⟩
    obtain ⟨a, stored, _⟩ := below.tidy.get?_of_code (below.listed.subset (List.mem_append_left _ inside))
    exact TokenStream.mem_ids_of_get? stored
  refine ⟨fun h member => ?_, fun rule member same => ?_, fun index nested => ?_⟩
  · rw [joined.id]
    exact (List.mem_append.mp member).elim (parted.own h) fun last => List.mem_singleton.mp last ▸ own'
  · rw [joined.id] at same
    exact List.subset_append_of_subset_left _ (parted.rows rule (mine rule member same) same)
  rw [joined.places, List.mem_append, List.mem_singleton] at nested
  rw [top, joined.id]
  rcases nested with old | rfl
  · obtain ⟨h, named, ⟨next, read, follows⟩, apart⟩ := parted.owners index old
    exact ⟨h, named, ⟨next, List.mem_append_left _ read, follows⟩, fun rule member same =>
      apart rule (mine rule member same) same⟩
  · refine ⟨keyword, rfl, ⟨token, by simp, place.before own own' ?_⟩, fun rule member same => .inl fun x part => ?_⟩
    · exact (List.sublist_append_left [keyword, token] _).trans (List.sublist_append_right _ _)
    · have inside := parted.rows rule (mine rule member same) same part
      refine place.before (parted.own x inside) own ?_
      exact (List.singleton_sublist.mpr inside).append (List.singleton_sublist.mpr (by simp))

end Parted

private theorem Course.parted (course : Course s pieces s') : ∀ {l scene front}, Poised l s → InPlace scene front [] s →
    Parted front s → ∃ scene' front', InPlace scene' front' [] s' ∧ Parted front' s' := by
  induction course with
  | done s => exact fun _ place parted => ⟨_, _, place, parted⟩
  | @imported s between s' pieces run rest ih =>
    intro l scene front poised place parted
    obtain ⟨more, _, after⟩ := importDirective_reads s () between run place
    obtain ⟨_, _, _, _, _, _, _, _, _, _, _, _, _, rfl⟩ := importDirective_done run
    exact ih (poised.imported run).2 (after.fewer (List.sublist_append_left _ _))
      ⟨parted.own, parted.rows, parted.owners⟩
  | @ruled s between s' pieces found run rest ih =>
    intro l scene front poised place parted
    obtain ⟨_, link⟩ := poised.accounted
    obtain ⟨_, after⟩ := rule_reads s found between run place
    have onward := rule_calm.onward s found between run link
    have settled := parted.settle link.sound onward.settled after (congrArg Surroundings.rules onward.around)
    have passed := (reading _).pass after
    have place' : InPlace { scene with strings := {}, rules := scene.rules ++ [found] } _
        [] { between with rules := between.rules ++ [found] } :=
      { passed with rules := congrArg (· ++ [found]) passed.rules }
    exact ih (poised.ruled run).2 place' (settled.rule after)
  | @skipped s between s' pieces d _ run located shut again rest ih =>
    intro l scene front poised place parted
    have after := (reading _).shrink (List.nil_sublist _) (directive_reads s d between run place)
    obtain ⟨_, _, rfl⟩ := directive_done run
    exact ih (poised.directive run).2 after ⟨parted.own, parted.rows, parted.owners⟩
  | @opened s between inner s' below pieces d place content source run opens inside rest ihInside ihRest =>
    intro l scene front poised before parted
    have after := directive_reads s d between run before
    have opening := poised.opening run opens
    obtain ⟨within, poisedInner⟩ := inside.forth opening.inner
    obtain ⟨nextId, strings, filled⟩ := (inside.arrayed opens.place).place
    have joined := opening.joined poisedInner
    have parted : Parted front between := by
      obtain ⟨_, _, rfl⟩ := directive_done run
      exact ⟨parted.own, parted.rows, parted.owners⟩
    obtain ⟨⟨scene', place'⟩, parted'⟩ := parted.rejoin after (by simpa using filled) joined
    exact ihRest (opening.rejoin inside within poisedInner).2.2 place' parted'

/-- Everything that was read of a file lies before an identity that is still free, and its rules are told from
directives. -/
theorem readSource_parted {settings : Settings} {tree : FileTree} {source : Source} {id : ChainId}
    {opened : List FileTree.Place} {file : RuleFile} (fresh : source.Fresh id) (untouched : Untouched source.tokens)
    (done : readSource settings tree source (id + 1) opened = .ok file) : ∃ s scene front,
    s.file settings.features = file ∧ InPlace scene front [] s ∧ Parted front s := by
  obtain ⟨pieces, last, course, same⟩ := readSource_course done
  have nothing : Parted [] (.first settings tree source (id + 1) opened) := by
    refine ⟨nofun, nofun, fun index nested => ?_⟩
    have here : index ∈ source.tokens.nested.map (·.1) := nested
    rw [untouched.bare] at here
    cases here
  obtain ⟨scene, front, place, parted⟩ := course.parted (fresh.poised untouched) fresh.first nothing
  exact ⟨last, scene, front, same, place, parted⟩

end Grammar

namespace RuleFile.Read

open Grammar

variable {file : RuleFile} (read : file.Read)
include read

/-- No stream of the file has an identity that is still to be given. -/
theorem ids_fresh : ∀ id ∈ file.tokens.ids, id < file.nextId := by
  obtain ⟨_, _, _, _, _, fresh, untouched, done⟩ := read.source
  obtain ⟨s, scene, front, rfl, place, _⟩ := readSource_parted fresh untouched done
  intro id member
  show id < s.nextId
  rw [place.nextId]
  exact (place.ids id member).2

/-- No token between two tokens of a rule of the file itself owns a stream. -/
theorem range_bare {rule : Rule} (member : rule ∈ file.rules) (own : rule.first.chain = file.tokens.chain.id)
    {first last : Handle} (begins : first ∈ rule.row) (ends : last ∈ rule.row) {handles : List Handle}
    (spanned : file.tokens.Spanned first last handles) : ∀ h ∈ handles, h.index ∉ file.tokens.nested.map (·.1) := by
  obtain ⟨_, _, _, _, _, fresh, untouched, done⟩ := read.source
  obtain ⟨s, scene, front, rfl, place, parted⟩ := readSource_parted fresh untouched done
  intro h held nested
  have inside := parted.rows rule member own
  obtain ⟨owner, found, part, starts, stops⟩ := spanned
  obtain rfl : s.source.tokens = owner :=
    Option.some.inj ((TokenStream.owner?_top (parted.own first (inside begins))).symm.trans found)
  obtain ⟨k, named, ⟨next, _, follows⟩, apart⟩ := parted.owners h.index nested
  obtain rfl := State.owner_unique place.tidy.sound (part.subset held) (follows.subset (by simp)) named.symm
  obtain ⟨ahead, behind, split⟩ := List.append_of_mem (part.subset held)
  have once := place.top_nodup
  rw [State.top, split] at once
  have absent := (List.nodup_middle.mp once).notMem
  rw [split] at part
  rcases apart rule member own with early | late
  · have before := early last ends
    rw [State.top, split] at before
    exact absent (List.mem_append_left _ ((infix_before once part stops before).subset held))
  · have after := late first begins
    rw [State.top, split] at after
    exact absent (List.mem_append_right _ ((infix_behind once part starts after).subset held))

end RuleFile.Read

end YaraRules
