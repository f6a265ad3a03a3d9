import YaraRules.Proofs.DraftForms
import YaraRules.Proofs.HexWords

/-! Hex strings that are built from drafts. A draft can be written unless a jump in it is inverted or an
alternation lacks alternatives, at any depth; what is written says what the draft bears. -/

namespace YaraRules

open TokenStream (Grows Plain Tells)

/-! ### Steps that always write -/

/-- A step always has a result, leaves what was written before it, and something holds of the result and the stream. -/
def Brings {α : Type} (step : Emit α) (post : α → TokenStream → Prop) : Prop :=
  ∀ s, s.Drafted → ∃ a s', step s = .ok (a, s') ∧ s'.Drafted ∧ Grows s s' ∧ post a s'

namespace Brings

variable {α β : Type} {step : Emit α} {next : α → Emit β} {known : α → TokenStream → Prop}
    {post : β → TokenStream → Prop}

theorem pure {b : β} (holds : ∀ s, post b s) : Brings (pure b) post :=
  fun s drafted => ⟨b, s, rfl, drafted, .refl s, holds s⟩

/-- What is known of the first result is known in the end. -/
theorem bind (first : Brings step known) (lasts : Lasts known)
    (rest : ∀ a, Brings (next a) fun b s => known a s → post b s) : Brings (step >>= next) post := by
  intro s drafted
  obtain ⟨a, s₁, found, drafted₁, grows₁, holds⟩ := first s drafted
  obtain ⟨b, s₂, run, drafted₂, grows₂, final⟩ := rest a s₁ drafted₁
  refine ⟨b, s₂, ?_, drafted₂, grows₁.trans grows₂, final (lasts a s₁ s₂ grows₂ holds)⟩
  show (step s >>= fun result => next result.1 result.2) = _
  rw [found]
  exact run

theorem put (token : Token) (plain : Plain token) : Brings (Emit.put token) fun h s => s.Tells h token := by
  intro s drafted
  obtain ⟨drafted', grows, tells⟩ := Emits.put token plain s _ _ drafted rfl
  exact ⟨_, _, rfl, drafted', grows, tells⟩

theorem weaken {weaker : α → TokenStream → Prop} (brings : Brings step known) (weaken : ∀ a s, known a s → weaker a s) :
    Brings step weaker :=
  fun s drafted => by
  obtain ⟨a, s', found, drafted', grows, holds⟩ := brings s drafted
  exact ⟨a, s', found, drafted', grows, weaken a s' holds⟩

theorem map {f : α → β} (brings : Brings step known) (holds : ∀ a s, known a s → post (f a) s) :
    Brings (f <$> step) post := by
  intro s drafted
  obtain ⟨a, s', found, drafted', grows, known⟩ := brings s drafted
  refine ⟨f a, s', ?_, drafted', grows, holds a s' known⟩
  show (step s >>= fun result => Pure.pure (f result.1, result.2)) = _
  rw [found]
  rfl

end Brings

namespace HexUnit

variable {s s' : TokenStream} {h : Handle} {a : Token}

private theorem bound_of_tells (tells : s.Tells h a) :
    bound s h = ⟨TokenStream.writtenAs a.kind a.literal.text, a.literal.number?⟩ := by
  rw [bound, tells.text, TokenStream.number?, tells.1]
  rfl

/-- Tokens of a row are told. -/
def Told (row : List Handle) (s : TokenStream) : Prop := ∀ h ∈ row, ∃ a, s.Tells h a

theorem Told.same {row : List Handle} (told : Told row s) (grows : Grows s s') : ∀ h ∈ row, Same s s' h :=
  fun h member => by
  obtain ⟨a, tells⟩ := told h member
  rw [Same, bound_of_tells (grows.tells tells), bound_of_tells tells]

theorem Told.grows {row : List Handle} (told : Told row s) (grows : Grows s s') : Told row s' := fun h member =>
  (told h member).imp fun _ tells => grows.tells tells

end HexUnit

namespace HexDraft

open HexUnit (Told)

/-! ### Trees of drafts -/

/-- A bound is written in decimal digits. -/
def bound (value : UInt64) : JumpBound := ⟨toString value.toNat, some value.toNat⟩

mutual

/-- What a draft bears. -/
def tree : HexDraft → HexTree
  | byte value => .byte (String.ofList (twoDigits value))
  | anyByte => .byte (String.ofList ['?', '?'])
  | lowNibble value => .byte (String.ofList ['?', digit value.toNat])
  | highNibble value => .byte (String.ofList [digit value.toNat, '?'])
  | otherByte value => .byte (String.ofList ('~' :: twoDigits value))
  | jump length => .jump (some (bound length)) false none
  | jumpBetween low high => .jump (some (bound low)) true (some (bound high))
  | jumpFrom low => .jump (some (bound low)) true none
  | jumpAny => .jump none true none
  | alternation alternatives => .alternation (treesAmong alternatives)

def treesAll : List HexDraft → List HexTree
  | [] => []
  | unit :: rest => unit.tree :: treesAll rest

def treesAmong : List (List HexDraft) → List (List HexTree)
  | [] => []
  | units :: rest => treesAll units :: treesAmong rest

end

/-! ### Writing -/

/-- A unit is written that says what the tree bears. -/
def Bears (t : HexTree) (unit : HexUnit) (s : TokenStream) : Prop := unit.tree s = t ∧ Told unit.handles s

def BearsAll (ts : List HexTree) (units : List HexUnit) (s : TokenStream) : Prop :=
  HexUnit.treesAll s units = ts ∧ Told (HexUnit.handlesAll units) s

def BearsAmong (ts : List (List HexTree)) (alternatives : List (List HexUnit)) (s : TokenStream) : Prop :=
  HexUnit.treesAmong s alternatives = ts ∧ Told (HexUnit.handlesAmong alternatives) s

def BearsBound (b : Option JumpBound) (h : Option Handle) (s : TokenStream) : Prop :=
  h.map (HexUnit.bound s) = b ∧ Told h.toList s

private theorem lasts_bears (t : HexTree) : Lasts (Bears t) := fun unit _ _ grows bears =>
  ⟨(HexUnit.tree_same unit (bears.2.same grows)).trans bears.1, bears.2.grows grows⟩

private theorem lasts_bearsAll (ts : List HexTree) : Lasts (BearsAll ts) := fun units _ _ grows bears =>
  ⟨(HexUnit.treesAll_same units (bears.2.same grows)).trans bears.1, bears.2.grows grows⟩

private theorem lasts_bearsAmong (ts : List (List HexTree)) : Lasts (BearsAmong ts) :=
  fun alternatives _ _ grows bears =>
  ⟨(HexUnit.treesAmong_same alternatives (bears.2.same grows)).trans bears.1, bears.2.grows grows⟩

private theorem lasts_bearsBound (b : Option JumpBound) : Lasts (BearsBound b) := fun _ _ _ grows bears =>
  ⟨(HexUnit.bounds_same fun k member => bears.2.same grows k (Option.mem_toList.mpr member)).trans bears.1,
    bears.2.grows grows⟩

private theorem fixed_brings (kind : TokenKind) :
    Brings (Emit.fixed kind) fun h s => s.Tells h (.fixed kind) := .put _ rfl

private theorem emitByte_brings (text : List Char) : Brings (emitByte text) (Bears (.byte (String.ofList text))) := by
  refine .bind (.put { kind := .hexByte, literal := .ofWritten (String.ofList text) } rfl)
    (lasts_tells _) fun token => ?_
  refine .pure fun s tells => ⟨?_, fun h member => ?_⟩
  · rw [HexUnit.tree, tells.text]
    rfl
  · obtain rfl : h = token := by simpa [HexUnit.handles] using member
    exact ⟨_, tells⟩

private theorem emitBound_brings (value : Option UInt64) : Brings (emitBound value) (BearsBound (value.map bound)) := by
  cases value with
  | none =>
    refine .pure fun _ => ⟨rfl, fun h member => ?_⟩
    simp at member
  | some value =>
    refine .bind (.put { kind := .integer, literal := .ofUInt value } rfl) (lasts_tells _) fun token => .pure
      fun s tells => ⟨?_, fun h member => ?_⟩
    · exact congrArg some (HexUnit.bound_of_tells tells)
    · obtain rfl : h = token := by simpa using member
      exact ⟨_, tells⟩

private theorem emitJump_brings (low : Option UInt64) (ranged : Bool) (high : Option UInt64) :
    Brings (emitJump low ranged high) (Bears (.jump (low.map bound) ranged (high.map bound))) := by
  refine .bind (fixed_brings _) (lasts_tells _) fun opening =>
    .bind (emitBound_brings low) (lasts_bearsBound _) fun lower => ?_
  let Dashed (dash : Option Handle) (s : TokenStream) : Prop := dash.isSome = ranged ∧ Told dash.toList s
  have lasts : Lasts Dashed := fun dash _ _ grows dashed => ⟨dashed.1, dashed.2.grows grows⟩
  have rest (dash : Option Handle) : Brings (do
      let high ← emitBound high
      let closing ← Emit.fixed .hexJumpClose
      return .jump opening lower dash high closing) fun unit s => Dashed dash s → BearsBound (low.map bound) lower s →
        s.Tells opening (.fixed .hexJumpOpen) → Bears (.jump (low.map bound) ranged (high.map bound)) unit s := by
    refine .bind (emitBound_brings high) (lasts_bearsBound _) fun higher => .bind (fixed_brings _) (lasts_tells _)
      fun closing => ?_
    refine .pure fun s closed above middle below opened => ⟨?_, fun h member => ?_⟩
    · rw [HexUnit.tree, below.1, above.1, middle.1]
    · simp only [HexUnit.handles, List.mem_cons, List.mem_append, List.not_mem_nil, or_false] at member
      rcases member with rfl | ((first | second) | third) | rfl
      · exact ⟨_, opened⟩
      · exact below.2 h first
      · exact middle.2 h second
      · exact above.2 h third
      · exact ⟨_, closed⟩
  cases ranged with
  | true =>
    have mark : Brings (some <$> Emit.fixed .dash) Dashed :=
      (fixed_brings .dash).map fun h s tells => ⟨rfl, fun k member => by
      obtain rfl : k = h := by simpa using member
      exact ⟨_, tells⟩⟩
    exact mark.bind lasts rest
  | false =>
    refine Brings.bind (.pure fun _ => ⟨rfl, fun h member => ?_⟩) lasts rest
    simp at member

mutual

private theorem emit_brings : ∀ draft : HexDraft, Brings draft.emit (Bears draft.tree)
  | byte _ | anyByte | lowNibble _ | highNibble _ | otherByte _ => by
    rw [emit, tree]
    exact emitByte_brings _
  | jump _ | jumpBetween _ _ | jumpFrom _ | jumpAny => by
    rw [emit, tree]
    exact emitJump_brings _ _ _
  | alternation alternatives => by
    rw [emit, tree]
    refine .bind (fixed_brings _) (lasts_tells _) fun opening => ?_
    refine .bind (emitAlternatives_brings false alternatives) (lasts_bearsAmong _) fun alternatives => ?_
    refine .bind (fixed_brings _) (lasts_tells _) fun closing => .pure fun s closed inner opened =>
      ⟨?_, fun h member => ?_⟩
    · rw [HexUnit.tree, inner.1]
    · simp only [HexUnit.handles, List.mem_cons, List.mem_append, List.not_mem_nil, or_false] at member
      rcases member with rfl | inside | rfl
      · exact ⟨_, opened⟩
      · exact inner.2 h inside
      · exact ⟨_, closed⟩

private theorem emitAll_brings : ∀ drafts, Brings (emitAll drafts) (BearsAll (treesAll drafts))
  | [] => by
    rw [emitAll, treesAll]
    exact .pure fun s => ⟨by rw [HexUnit.treesAll], nofun⟩
  | unit :: rest => by
    rw [emitAll, treesAll]
    refine .bind (emit_brings unit) (lasts_bears _) fun first => .bind (emitAll_brings rest) (lasts_bearsAll _)
      fun others => ?_
    refine .pure fun s later here => ⟨by rw [HexUnit.treesAll, here.1, later.1], fun h member => ?_⟩
    exact (List.mem_append.mp member).elim (here.2 h) (later.2 h)

private theorem emitAlternatives_brings (bar : Bool) : ∀ drafts, Brings (emitAlternatives bar drafts)
    (BearsAmong (treesAmong drafts))
  | [] => by
    rw [emitAlternatives, treesAmong]
    exact .pure fun s => ⟨by rw [HexUnit.treesAmong], nofun⟩
  | units :: rest => by
    rw [emitAlternatives, treesAmong]
    have both : Brings (do
        let first ← emitAll units
        return first :: (← emitAlternatives true rest)) (BearsAmong (treesAll units :: treesAmong rest)) := by
      refine .bind (emitAll_brings units) (lasts_bearsAll _) fun first =>
        .bind (emitAlternatives_brings true rest) (lasts_bearsAmong _) fun others => ?_
      refine .pure fun s later here => ⟨by rw [HexUnit.treesAmong, here.1, later.1], fun h member => ?_⟩
      exact (List.mem_append.mp member).elim (here.2 h) (later.2 h)
    cases bar with
    | false => exact both
    | true =>
      exact (fixed_brings .hexAltOr).bind (lasts_tells _) fun _ => both.weaken fun _ _ bears _ => bears

end

/-! ### What cannot be written -/

/-- A jump goes backwards, or an alternation has too few alternatives, an empty one, or one with such a unit in it. -/
inductive Wrong : HexDraft → Prop
  | inverted {low high : UInt64} (less : high < low) : Wrong (jumpBetween low high)
  | few {alternatives : List (List HexDraft)} (few : alternatives.length < 2) : Wrong (alternation alternatives)
  | empty {alternatives : List (List HexDraft)} (member : [] ∈ alternatives) : Wrong (alternation alternatives)
  | inner {alternatives : List (List HexDraft)} {units : List HexDraft} {unit : HexDraft}
      (listed : units ∈ alternatives) (member : unit ∈ units)
      (wrong : Wrong unit) : Wrong (alternation alternatives)

private theorem faultsOf_eq (units : List HexDraft) : faultsOf units = units.map fault? := by
  induction units with
  | nil => rw [faultsOf]; rfl
  | cons unit rest ih => rw [faultsOf, ih]; rfl

private theorem faultsOfAll_eq (alternatives : List (List HexDraft)) :
    faultsOfAll alternatives = alternatives.map fun units => units.map fault? := by
  induction alternatives with
  | nil => rw [faultsOfAll]; rfl
  | cons units rest ih => rw [faultsOfAll, ih, faultsOf_eq]; rfl

private theorem findSome_faults {units : List HexDraft} :
    (units.map fault?).findSome? id = none ↔ ∀ unit ∈ units, unit.fault? = none := by
  simp [List.findSome?_eq_none_iff]

/-- An alternation is written if there are alternatives to choose between and each of them is written. -/
theorem fault_alternation (alternatives : List (List HexDraft)) :
    (alternation alternatives).fault? = none ↔ 2 ≤ alternatives.length ∧ (∀ units ∈ alternatives, units ≠ []) ∧
    ∀ units ∈ alternatives, ∀ unit ∈ units, unit.fault? = none := by
  rw [fault?, faultsOfAll_eq]
  constructor
  · intro none
    split_ifs at none with bad
    simp only [Bool.or_eq_true, decide_eq_true_eq, List.length_map, List.any_eq_true, List.mem_map, not_or,
      Nat.not_lt] at bad
    refine ⟨bad.1, fun units member empty => bad.2 ⟨[], ⟨units, member, by rw [empty]; rfl⟩, rfl⟩,
      fun units member => ?_⟩
    exact findSome_faults.mp (List.findSome?_eq_none_iff.mp none _ (List.mem_map_of_mem member))
  · rintro ⟨two, filled, each⟩
    have fine : ¬(((alternatives.map fun units => units.map fault?).length < 2)
      || (alternatives.map fun units => units.map fault?).any
        (·.all Option.isSome)) = true := by
      simp only [Bool.or_eq_true, decide_eq_true_eq, List.length_map, List.any_eq_true, List.mem_map,
        not_or, Nat.not_lt]
      refine ⟨two, ?_⟩
      rintro ⟨_, ⟨units, member, rfl⟩, all⟩
      obtain ⟨unit, rest, rfl⟩ := List.exists_cons_of_ne_nil (filled units member)
      simp [each _ member unit (by simp)] at all
    rw [if_neg fine, List.findSome?_eq_none_iff]
    intro faults member
    obtain ⟨units, listed, rfl⟩ := List.mem_map.mp member
    exact findSome_faults.mpr (each units listed)

mutual

/-- A unit cannot be written if and only if something is wrong with it. -/
theorem fault_iff : ∀ unit : HexDraft, unit.fault? ≠ none ↔ unit.Wrong
  | jumpBetween low high => by
    rw [fault?]
    constructor
    · intro fault
      split_ifs at fault with less
      · exact .inverted less
      · exact absurd rfl fault
    · rintro ⟨less⟩
      simp [less]
  | alternation alternatives => by
    have inner := faultsAmong_iff alternatives
    rw [Ne, fault_alternation]
    constructor
    · intro fault
      by_cases few : alternatives.length < 2
      · exact .few few
      by_cases empty : [] ∈ alternatives
      · exact .empty empty
      by_contra fine
      refine fault ⟨Nat.not_lt.mp few, fun units member none =>
        empty (none ▸ member), fun units listed unit member => ?_⟩
      by_contra wrong
      exact fine (.inner listed member ((inner units listed unit member).mp wrong))
    · rintro wrong ⟨two, filled, each⟩
      cases wrong with
      | few few => omega
      | empty member => exact filled [] member rfl
      | inner listed member wrong => exact (inner _ listed _ member).mpr wrong (each _ listed _ member)
  | byte _ | anyByte | lowNibble _ | highNibble _ | otherByte _ | jump _ | jumpFrom _ | jumpAny => by
    rw [fault?]
    · exact ⟨fun fault => absurd rfl fault, nofun⟩
    all_goals nofun

private theorem faults_iff : ∀ units : List HexDraft, ∀ unit ∈ units, (unit.fault? ≠ none ↔ unit.Wrong)
  | [] => nofun
  | unit :: rest => List.forall_mem_cons.mpr ⟨fault_iff unit, faults_iff rest⟩

private theorem faultsAmong_iff : ∀ alternatives : List (List HexDraft), ∀ units ∈ alternatives, ∀ unit ∈ units,
    (unit.fault? ≠ none ↔ unit.Wrong)
  | [] => nofun
  | units :: rest => List.forall_mem_cons.mpr ⟨faults_iff units, faultsAmong_iff rest⟩

end

/-! ### What can be read -/

private theorem digit_read (n : Nat) : ∃ value, nibble? (digit n) = some (.value value) ∧ digit n ≠ '~' := by
  have known : ∀ n < 16, nibble? (digit n) = some (.value (Fin.ofNat 16 n)) ∧ digit n ≠ '~' := by decide
  have same : digit n = digit (n % 16) := by simp [digit]
  rw [same]
  exact ⟨_, known (n % 16) (Nat.mod_lt n (by decide))⟩

private theorem pair_read {high low : Char} (first : (nibble? high).isSome) (second : (nibble? low).isSome)
    (other : high ≠ '~') : (HexByte.read? (String.ofList [high, low])).isSome := by
  obtain ⟨_, one⟩ := Option.isSome_iff_exists.mp first
  obtain ⟨_, two⟩ := Option.isSome_iff_exists.mp second
  unfold HexByte.read?
  rw [String.toList_ofList]
  split
  next same => exact absurd (List.cons.inj same).1 other
  next => simp [pair?, one, two]

private theorem byte_sound {value : UInt8} : (HexTree.byte (String.ofList (twoDigits value))).Sound := by
  obtain ⟨_, one, other⟩ := digit_read (value.toNat / 16)
  obtain ⟨_, two, _⟩ := digit_read value.toNat
  exact .byte (pair_read (by simp [one]) (by simp [two]) other)

private theorem otherByte_sound {value : UInt8} : (HexTree.byte (String.ofList ('~' :: twoDigits value))).Sound := by
  obtain ⟨_, one, _⟩ := digit_read (value.toNat / 16)
  obtain ⟨_, two, _⟩ := digit_read value.toNat
  refine .byte ?_
  unfold HexByte.read?
  rw [String.toList_ofList]
  simp [twoDigits, pair?, one, two]

theorem bound_sound (value : UInt64) : (bound value).Sound := by
  obtain ⟨digits, some, _⟩ := Lexer.digits_decimal value.toNat
  refine ⟨.decimal some digits, _, Lexer.integerLiteral_decimal value.toNat_lt, ?_⟩
  exact (Literal.agrees_uint value).number

private theorem bounds_inOrder {low high : UInt64} (order : ¬high < low) : (bound low).InOrder (bound high) := by
  rintro _ _ ⟨⟩ ⟨⟩
  rw [UInt64.lt_iff_toNat_lt] at order
  exact .inl (Int.ofNat_le.mpr (Nat.not_lt.mp order))

mutual

private theorem tree_sound : ∀ unit : HexDraft, unit.fault? = none → unit.tree.Sound
  | byte _, _ => by
    rw [tree]
    exact byte_sound
  | anyByte, _ => by
    rw [tree]
    exact .byte (pair_read rfl rfl (by decide))
  | lowNibble value, _ => by
    obtain ⟨_, one, _⟩ := digit_read value.toNat
    rw [tree]
    exact .byte (pair_read rfl (by simp [one]) (by decide))
  | highNibble value, _ => by
    obtain ⟨_, one, other⟩ := digit_read value.toNat
    rw [tree]
    exact .byte (pair_read (by simp [one]) rfl other)
  | otherByte _, _ => by
    rw [tree]
    exact otherByte_sound
  | jump length, _ => by
    rw [tree]
    exact .length (bound_sound length)
  | jumpBetween low high, fine => by
    rw [fault?] at fine
    split_ifs at fine with less
    rw [tree]
    refine .range ?_ ?_ ?_
    · rintro _ ⟨⟩
      exact bound_sound low
    · rintro _ ⟨⟩
      exact bound_sound high
    · rintro _ ⟨⟩ _ ⟨⟩
      exact bounds_inOrder less
  | jumpFrom low, _ => by
    rw [tree]
    refine .range ?_ nofun fun _ _ => nofun
    rintro _ ⟨⟩
    exact bound_sound low
  | jumpAny, _ => by
    rw [tree]
    exact .range nofun nofun nofun
  | alternation alternatives, fine => by
    obtain ⟨two, filled, each⟩ := (fault_alternation alternatives).mp fine
    obtain ⟨length, some, sound⟩ := treesAmong_sound alternatives filled each
    rw [tree]
    exact .alternation (length ▸ two) some sound

theorem treesAll_sound : ∀ units : List HexDraft, (∀ unit ∈ units, unit.fault? = none) →
    (treesAll units).length = units.length ∧ ∀ unit ∈ treesAll units, unit.Sound
  | [], _ => by
    rw [treesAll]
    exact ⟨rfl, nofun⟩
  | unit :: rest, fine => by
    obtain ⟨here, later⟩ := List.forall_mem_cons.mp fine
    obtain ⟨length, sound⟩ := treesAll_sound rest later
    rw [treesAll]
    exact ⟨congrArg (· + 1) length, List.forall_mem_cons.mpr ⟨tree_sound unit here, sound⟩⟩

private theorem treesAmong_sound : ∀ alternatives : List (List HexDraft), (∀ units ∈ alternatives, units ≠ []) →
    (∀ units ∈ alternatives, ∀ unit ∈ units, unit.fault? = none) →
    alternatives.length = (treesAmong alternatives).length ∧
      (∀ units ∈ treesAmong alternatives, units ≠ []) ∧ ∀ units ∈ treesAmong alternatives, ∀ unit ∈ units, unit.Sound
  | [], _, _ => by
    rw [treesAmong]
    exact ⟨rfl, nofun, nofun⟩
  | units :: rest, filled, fine => by
    obtain ⟨some, filled⟩ := List.forall_mem_cons.mp filled
    obtain ⟨here, later⟩ := List.forall_mem_cons.mp fine
    obtain ⟨length, sound⟩ := treesAll_sound units here
    obtain ⟨more, somes, sounds⟩ := treesAmong_sound rest filled later
    rw [treesAmong]
    refine ⟨congrArg (· + 1) more, List.forall_mem_cons.mpr ⟨fun none => some ?_, somes⟩,
      List.forall_mem_cons.mpr ⟨sound, sounds⟩⟩
    rw [none] at length
    exact List.length_eq_zero_iff.mp length.symm

end

/-! ### Hex strings of drafts -/

theorem faultOf_none {units : List HexDraft} :
    faultOf? units = none ↔ units ≠ [] ∧ ∀ unit ∈ units, unit.fault? = none := by
  rw [faultOf?, faultsOf_eq]
  split_ifs with empty
  · simp [List.isEmpty_iff.mp empty]
  · rw [findSome_faults]
    simp [List.isEmpty_iff.not.mp empty]

/-- A hex string that is built says what its draft says. -/
theorem build_bears {units : List HexDraft} (fine : faultOf? units = none) (id : ChainId) :
    ∃ hex : Detached HexString, build id units = .ok hex ∧ hex.node.trees hex.tokens = treesAll units := by
  have written : Brings (emitString units) fun hex s => hex.trees s = treesAll units := by
    unfold emitString
    rw [fine]
    refine .bind (fixed_brings _) (lasts_tells _) fun opening =>
      .bind (emitAll_brings units) (lasts_bearsAll _) fun inner => ?_
    exact .bind (fixed_brings _) (lasts_tells _) fun closing => .pure fun s _ bears _ => bears.1
  obtain ⟨hex, tokens, run, _, _, same⟩ := written _ (TokenStream.drafted_empty id)
  refine ⟨⟨tokens, hex⟩, ?_, same⟩
  unfold build
  rw [show (emitString units).run (.empty id) = _ from run]
  rfl

/-- A hex string cannot be built if and only if there are no units or something is wrong with one of them. -/
theorem build_fails (id : ChainId) (units : List HexDraft) :
    (∃ e, build id units = .error e) ↔ units = [] ∨ ∃ unit ∈ units, unit.Wrong := by
  have wrong : faultOf? units ≠ none ↔ units = [] ∨ ∃ unit ∈ units, unit.Wrong := by
    rw [Ne, faultOf_none, not_and_or, not_not]
    refine or_congr_right ?_
    simp only [not_forall, exists_prop]
    exact exists_congr fun unit => and_congr_right fun _ => fault_iff unit
  rw [← wrong]
  cases fault : faultOf? units with
  | none =>
    obtain ⟨hex, built, _⟩ := build_bears fault id
    simp [built]
  | some e =>
    have failed : build id units = .error e := by
      unfold build emitString
      rw [fault]
      rfl
    simp [failed]

/-- A jump between two lengths is built if and only if they are in order. -/
theorem between_built {id : ChainId} {low high : UInt64} :
    (∃ hex, build id [jumpBetween low high] = .ok hex) ↔ low ≤ high := by
  have wrong : (∃ e, build id [jumpBetween low high] = .error e) ↔ high < low := by
    rw [build_fails]
    simp only [List.cons_ne_nil, false_or, List.mem_singleton, exists_eq_left]
    exact ⟨fun | .inverted less => less, .inverted⟩
  rw [← UInt64.not_lt, ← wrong]
  cases build id [jumpBetween low high] with
  | error e => simp
  | ok hex => simp

end HexDraft

end YaraRules
