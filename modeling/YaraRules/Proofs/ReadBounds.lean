import YaraRules.Proofs.ExprHandles
import YaraRules.Proofs.ReadRows
import YaraRules.Proofs.WrittenLiterals

/-! Bounds that are written as numbers. The parser compares them where both fit a signed number of
64 bits, so bounds that were read are in order unless the lower one is larger than that. No step behind
the comparison gives a token another number. -/

namespace YaraRules

/-! ### Numbers in order -/

namespace Literal

variable {l : Literal}

theorem number_of_asInt? {i : Int64} (fits : l.asInt? = some i) : l.number? = some i.toInt := by
  cases same : l.value with
  | int j =>
    obtain rfl : j = i := by simpa [asInt?, same] using fits
    simp only [number?, same]
  | uint u =>
    simp only [asInt?, same] at fits
    split_ifs at fits with small
    cases fits
    simp only [number?, same]
    exact congrArg some (Int64.toInt_ofNat_of_lt small).symm
  | _ => simp [asInt?, same] at fits

private theorem large_of_asInt? {n : Int} (number : l.number? = some n) (large : l.asInt? = none) :
    (signedLimit : Int) ≤ n := by
  cases same : l.value with
  | int j => simp [asInt?, same] at large
  | uint u =>
    obtain rfl : (u.toNat : Int) = n := by simpa [number?, same] using number
    simp only [asInt?, same] at large
    split_ifs at large with small
    exact Int.ofNat_le.mpr (Nat.le_of_not_lt small)
  | _ => simp [number?, same] at number

end Literal

namespace TokenStream

variable {s : TokenStream} {low high h : Handle}

/-- The number that a token stands for. -/
def number? (s : TokenStream) (h : Handle) : Option Int := (s.get? h).bind (·.literal.number?)

/-- Two numbers are in order, unless the first is too large to be compared. -/
def InOrder (s : TokenStream) (bounds : Handle × Handle) : Prop :=
  ∀ low high, s.number? bounds.1 = some low → s.number? bounds.2 = some high → low ≤ high ∨
    (Literal.signedLimit : Int) ≤ low

/-- Bounds are in order if they are wherever both can be compared. -/
theorem inOrder_of_compared (compared : ∀ l h, (s.get? low).bind (·.literal.asInt?) = some l →
    (s.get? high).bind (·.literal.asInt?) = some h → ¬ h < l) : s.InOrder (low, high) := by
  intro m n first second
  obtain ⟨a, stored, number⟩ := Option.bind_eq_some_iff.mp first
  obtain ⟨b, stored', number'⟩ := Option.bind_eq_some_iff.mp second
  cases fits : a.literal.asInt? with
  | none => exact .inr (Literal.large_of_asInt? number fits)
  | some l =>
    obtain rfl : l.toInt = m := Option.some.inj ((Literal.number_of_asInt? fits).symm.trans number)
    refine .inl ?_
    cases fits' : b.literal.asInt? with
    | none =>
      have large := Literal.large_of_asInt? number' fits'
      have small : l.toInt < Literal.signedLimit := l.toInt_lt
      omega
    | some h =>
      obtain rfl : h.toInt = n := Option.some.inj ((Literal.number_of_asInt? fits').symm.trans number')
      have order := compared l h (by simp [stored, fits]) (by simp [stored', fits'])
      rw [Int64.lt_iff_toInt_lt] at order
      omega

/-- Bounds stay in order while no token gets a number. -/
theorem InOrder.modify {bounds : Handle × Handle} (order : s.InOrder bounds) (h : Handle) {f : Token → Token}
    (same : ∀ a n, (f a).literal.number? = some n → a.literal.number? = some n) : (s.modify h f).InOrder bounds := by
  have before (k : Handle) (n : Int) (now : (s.modify h f).number? k = some n) : s.number? k = some n := by
    obtain ⟨b, stored, number⟩ := Option.bind_eq_some_iff.mp now
    rw [get?_modify] at stored
    split_ifs at stored with here
    · obtain ⟨a, found, rfl⟩ := Option.map_eq_some_iff.mp stored
      exact Option.bind_eq_some_iff.mpr ⟨a, here ▸ found, same a n number⟩
    · exact Option.bind_eq_some_iff.mpr ⟨b, stored, number⟩
  exact fun low high first second => order low high (before _ low first) (before _ high second)

end TokenStream

/-! ### Bounds of expressions and of strings -/

namespace Expr

/-- The tokens of the bounds of a range that are written as numbers. -/
def ownBounds : Expr → List (Handle × Handle)
  | .range _ _ (.atom _ .integer low) _ (.atom _ .integer high) _ => [(low, high)]
  | _ => []

/-- Bounds of all ranges in an expression. -/
def bounds (e : Expr) : List (Handle × Handle) := e.nodes.flatMap (·.2.ownBounds)

theorem bounds_eq (e : Expr) : e.bounds = e.ownBounds ++ e.children.flatMap bounds := by
  have depths : ∀ (e : Expr) depth, (e.nodesFrom depth).flatMap (·.2.ownBounds) = e.bounds := by
    intro e
    induction e using by_children with
    | step e below =>
      have at_ (depth : Nat) : (e.nodesFrom depth).flatMap (·.2.ownBounds) = e.ownBounds ++
          e.children.flatMap bounds := by
        rw [nodesFrom_eq, List.flatMap_cons, List.flatMap_assoc]
        exact congrArg _ (List.flatMap_congr fun child member => below child member (depth + 1))
      exact fun depth => (at_ depth).trans (at_ 0).symm
  rw [← depths e 0, nodesFrom_eq, List.flatMap_cons, List.flatMap_assoc]
  exact congrArg _ (List.flatMap_congr fun child _ => depths child 1)

end Expr

namespace HexUnit

mutual

/-- The tokens of the bounds of jumps that have both. -/
def jumps : HexUnit → List (Handle × Handle)
  | jump _ (some low) _ (some high) _ => [(low, high)]
  | alternation _ alternatives _ => jumpsAmong alternatives
  | _ => []

def jumpsAll : List HexUnit → List (Handle × Handle)
  | [] => []
  | unit :: rest => unit.jumps ++ jumpsAll rest

def jumpsAmong : List (List HexUnit) → List (Handle × Handle)
  | [] => []
  | units :: rest => jumpsAll units ++ jumpsAmong rest

end

private theorem jumpsAmong_eq (alternatives : List (List HexUnit)) :
    jumpsAmong alternatives = alternatives.flatMap jumpsAll := by
  induction alternatives with
  | nil => rfl
  | cons units rest ih => rw [jumpsAmong, ih, List.flatMap_cons]

end HexUnit

/-- Bounds of the jumps in a string. -/
def StringContent.jumps : StringContent → List (Handle × Handle)
  | hex string => HexUnit.jumpsAll string.units
  | _ => []

/-- Bounds of the jumps in the strings of a rule and of the ranges in its condition. -/
def Rule.bounds (rule : Rule) : List (Handle × Handle) :=
  rule.strings.values.flatMap (·.content.jumps) ++ rule.condition.bounds

namespace Grammar

/-! ### Steps that compare -/

/-- Bounds of the jumps in the strings that were read so far. -/
def State.jumps (s : State) : List (Handle × Handle) := s.strings.values.flatMap (·.content.jumps)

/-- Some bounds are in order, and so are those in the strings that were read so far. -/
def Ordered (bounds : List (Handle × Handle)) (s : State) : Prop :=
  ∀ pair ∈ bounds ++ s.jumps, s.source.tokens.InOrder pair

/-- Bounds that were in order still are, and so are those of what a step gives. -/
def Orders {α : Type} (held : List (Handle × Handle)) (step : Parse α) (given : α → List (Handle × Handle)) : Prop :=
  Ensures (Ordered held) step fun a => Ordered (given a ++ held)

theorem Ordered.fewer {held fewer : List (Handle × Handle)} {s : State} (ordered : Ordered held s)
    (known : fewer ⊆ held) : Ordered fewer s :=
  fun pair member => ordered pair ((List.mem_append.mp member).elim (fun new => List.mem_append_left _ (known new))
    (List.mem_append_right _))

section

variable {α β : Type} {held : List (Handle × Handle)} {step : Parse α} {next : α → Parse β} {row given : α →
  List (Handle × Handle)}
  {last : β → List (Handle × Handle)}

namespace Orders

theorem pure {a : α} (known : given a ⊆ held) : Orders held (pure a : Parse α) given :=
  Ensures.pure fun _ ordered => ordered.fewer (List.append_subset.mpr ⟨known, List.Subset.refl held⟩)

theorem never (never : Never step) : Orders held step given := Ensures.never never

theorem bind (first : Orders held step row) (rest : ∀ a, Orders (row a ++ held) (next a) last) :
    Orders held (step >>= next) last :=
  Ensures.bind first fun a => (rest a).weaken fun b s ordered => ordered.fewer fun pair member => by
    rcases List.mem_append.mp member with new | old
    · exact List.mem_append_left _ new
    · exact List.mem_append_right _ (List.mem_append_right _ old)

theorem forget (orders : Orders held step given) : Orders held step fun _ => [] :=
  Ensures.weaken orders fun _ _ ordered => ordered.fewer (List.subset_append_right _ _)

/-- A step that only looks at the state comes first. -/
theorem skip {seen : State → α} (same : ∀ s, step s = .ok (seen s, s)) (rest : ∀ a, Orders held (next a) last) :
    Orders held (step >>= next) last := Ensures.skip same rest

theorem ite {c : Prop} [Decidable c] {other : Parse α} (yes : c → Orders held step given)
    (no : ¬ c → Orders held other given) : Orders held (if c then step else other) given := Ensures.ite yes no

theorem guard {c : Prop} [Decidable c] {rest : Parse β} (never : Never step) (orders : Orders held rest last) :
    Orders held (if c then step >>= next else rest) last := Ensures.guard never orders

theorem forM {check : α → Parse PUnit} (each : ∀ a, Orders held (check a) fun _ => []) (items : List α) :
    Orders held (items.forM check) fun _ => [] := by
  induction items with
  | nil => exact .pure (by simp)
  | cons item rest ih => exact .bind (each item) fun _ => ih

theorem mapM {look : α → Parse β} (each : ∀ a, Orders held (look a) fun _ => []) (items : List α) :
    Orders held (items.mapM look) fun _ => [] := by
  induction items with
  | nil => exact .pure (by simp)
  | cons item rest ih =>
    rw [List.mapM_cons]
    exact .bind (each item) fun _ => .bind ih fun _ => .pure (by simp)

/-- What concerns neither the source nor the strings does not matter. -/
theorem aside {f : State → State} (same : ∀ s, (f s).source = s.source ∧ (f s).strings = s.strings) :
    Orders held (modify f) fun _ => [] :=
  Ensures.modify fun s ordered => by
    show ∀ pair ∈ held ++ (f s).jumps, (f s).source.tokens.InOrder pair
    rw [State.jumps, (same s).1, (same s).2]
    exact ordered

end Orders

end

variable {α : Type} {held : List (Handle × Handle)}

/-! ### Elementary steps -/

theorem advance_orders : Orders held advance fun _ => [] := by
  intro s h s' done order
  obtain ⟨rest, _, rfl⟩ := advance_done done
  exact order

theorem expect_orders (kind : TokenKind) : Orders held (expect kind) fun _ => [] :=
  .skip (fun _ => rfl) fun _ => .ite (fun _ => advance_orders) fun _ => .never (never_unexpected _)

theorem accept_orders (kind : TokenKind) : Orders held (accept? kind) fun _ => [] :=
  .skip (fun _ => rfl) fun _ => .ite (fun _ => .bind advance_orders fun _ => .pure (by simp)) fun _ => .pure (by simp)

private theorem modify_orders {h : Handle} {f : Token → Token} (same : ∀ a n, (f a).literal.number? = some n →
    a.literal.number? = some n) : Orders held (modifyTokens (·.modify h f)) fun _ => [] :=
  Ensures.modify fun _ ordered pair member => (ordered pair member).modify h same

theorem refine_orders (h : Handle) (kind : TokenKind) : Orders held (refine h kind) fun _ => [] :=
  modify_orders fun _ _ => id

theorem breakAfter_orders (h : Handle) (wanted : Bool) : Orders held (breakAfter h wanted) fun _ => [] :=
  modify_orders fun _ _ => id

/-- A token comes to stand for something that is no number. -/
theorem setLiteral_orders (h : Handle) {literal : Literal} (none : literal.number? = none) :
    Orders held (setLiteral h literal) fun _ => [] :=
  modify_orders fun _ _ found => by cases none.symm.trans found

private theorem itemsWhile_orders {starts : TokenKind → Bool} {item : Parse α} {row : α → List (Handle × Handle)}
    (each : ∀ {held}, Orders held item row) : ∀ {held} bound, Orders held (itemsWhile starts item bound) fun items =>
    items.flatMap row
  | _, 0 => .pure (by simp)
  | _, bound + 1 => .skip (fun _ => rfl) fun _ => .ite
    (fun _ => .bind each fun _ => .bind (itemsWhile_orders each bound) fun _ => .pure (by simp))
      fun _ => .pure (by simp)

theorem separated_orders {separator : TokenKind} {item : Parse α} {row : α → List (Handle × Handle)}
    (each : ∀ {held}, Orders held item row) :
    ∀ {held} bound, Orders held (separated separator item bound) fun items => items.flatMap row
  | _, 0 => .bind each fun _ => .pure (by simp)
  | _, bound + 1 => .bind each fun _ => .bind (accept_orders separator) fun next => by
    cases next with
    | none => exact .pure (by simp)
    | some _ =>
      refine .bind (separated_orders each bound) fun _ => .pure fun pair member => ?_
      rcases List.mem_append.mp (List.flatMap_cons ▸ member) with first | later
      · simp [first]
      · exact List.mem_append_left _ later

theorem checkEscapes_orders (h : Handle) : Orders held (checkEscapes h) fun _ => [] := by
  refine .skip (fun _ => rfl) fun tokens => ?_
  split
  · split
    · exact .pure (by simp)
    · exact .skip (fun _ => rfl) fun _ => .never (never_fail _ _)
  · exact .pure (by simp)

theorem readRegexp_orders (h : Handle) : Orders held (readRegexp h) fun _ => [] := by
  refine .skip (fun _ => rfl) fun text => ?_
  split
  · exact .pure (by simp)
  · exact .never (never_fail _ _)

/-! ### Jumps -/

/-- Two numbers are compared if both are there. -/
theorem compared_done {s s' : State} {low high : Option Int64} {stop : Int64 → Int64 → Problem} {h : Handle}
    {a b : α} (done : (do
      match low, high with
      | some l, some h' => if h' < l then fail h (stop l h')
      | _, _ => pure ()
      return a : Parse α) s = .ok (b, s')) : b = a ∧ s' = s ∧ ∀ l h, low = some l → high = some h → ¬ h < l := by
  cases low with
  | none =>
    cases done
    exact ⟨rfl, rfl, nofun⟩
  | some l =>
    cases high with
    | none =>
      cases done
      exact ⟨rfl, rfl, fun _ _ _ => nofun⟩
    | some h' =>
      dsimp only at done
      split_ifs at done with wrong
      · exact absurd done ((never_fail _ _).bind _ _ _ _)
      · cases done
        refine ⟨rfl, rfl, ?_⟩
        rintro _ _ ⟨⟩ ⟨⟩
        exact wrong

/-- Some bounds are in order behind the comparison. -/
theorem compared_ensures {tokens : TokenStream} {low high : Option Int64} {stop : Int64 → Int64 → Problem}
    {h : Handle} {a : α}
    {new : List (Handle × Handle)}
    (order : (∀ l h, low = some l → high = some h → ¬ h < l) → ∀ pair ∈ new, tokens.InOrder pair) :
    Ensures (fun s => s.source.tokens = tokens ∧ Ordered held s) (do
      match low, high with
      | some l, some h' => if h' < l then fail h (stop l h')
      | _, _ => pure ()
      return a) fun b s => b = a ∧ Ordered (new ++ held) s := by
  rintro s b s' done ⟨rfl, before⟩
  obtain ⟨rfl, rfl, known⟩ := compared_done done
  refine ⟨rfl, fun pair member => ?_⟩
  rw [List.append_assoc] at member
  exact (List.mem_append.mp member).elim (order known pair) (before pair)

private theorem jumpEnd_orders (opening : Handle) (low dash high : Option Handle) :
    Orders held (jumpEnd opening low dash high) HexUnit.jumps := by
  unfold jumpEnd
  refine .guard (never_unexpected _) (.bind (expect_orders _) fun closing =>
    Ensures.look (fun _ => rfl) fun tokens => ?_)
  have order (compared : ∀ l h, integerAt? tokens low = some l → integerAt? tokens high = some h → ¬ h < l) :
      ∀ pair ∈ (HexUnit.jump opening low dash high closing).jumps, tokens.InOrder pair := by
    intro pair member
    cases low with
    | none => cases member
    | some low =>
      cases high with
      | none => cases member
      | some high =>
        obtain rfl := List.mem_singleton.mp member
        exact TokenStream.inOrder_of_compared compared
  exact (compared_ensures order).weaken fun jump s ⟨same, ordered⟩ => same ▸ ordered

private theorem hexJump_orders : Orders held hexJump HexUnit.jumps := by
  refine .bind (expect_orders _) fun opening => .bind (accept_orders _)
    fun low => .bind (accept_orders _) fun dash => ?_
  cases dash with
  | some _ => exact .bind (accept_orders _) fun high => jumpEnd_orders opening low _ high
  | none => exact jumpEnd_orders opening low none none

private theorem hexUnits_orders : ∀ {held} bound, Orders held (hexUnits bound) HexUnit.jumpsAll
  | _, 0 => .pure (by simp [HexUnit.jumpsAll])
  | _, bound + 1 => by
    refine .skip (fun _ => rfl) fun next => ?_
    split
    · refine .bind advance_orders fun token => .skip (fun _ => rfl) fun text => .guard (never_fail _ _) ?_
      exact .bind (hexUnits_orders bound) fun units => .pure (by simp [HexUnit.jumpsAll, HexUnit.jumps])
    · exact .bind hexJump_orders fun jump => .bind (hexUnits_orders bound) fun units =>
        .pure (by simp [HexUnit.jumpsAll])
    · have alternative {held : List (Handle × Handle)} : Orders held (do
          let units ← hexUnits bound
          if units.isEmpty then unexpected "hex byte" else return units) HexUnit.jumpsAll :=
        .bind (hexUnits_orders bound) fun units => .ite (fun _ => .never (never_unexpected _)) fun _ => .pure (by simp)
      refine .bind advance_orders fun opening => .bind (separated_orders alternative bound) fun alternatives => ?_
      refine .guard (never_unexpected _) (.bind (expect_orders _) fun closing => ?_)
      exact .bind (hexUnits_orders bound) fun units =>
        .pure (by simp [HexUnit.jumpsAll, HexUnit.jumps, HexUnit.jumpsAmong_eq])
    · exact .pure (by simp [HexUnit.jumpsAll])

private theorem hexString_orders : Orders held hexString fun string => HexUnit.jumpsAll string.units := by
  refine .bind (expect_orders _) fun opening => .skip (fun _ => rfl) fun bound =>
    .bind (hexUnits_orders bound) fun units => ?_
  refine .guard (never_unexpected _) (.bind (expect_orders _) fun closing => .skip (fun _ => rfl) fun tokens => ?_)
  exact .bind (breakAfter_orders _ _) fun _ => .pure (by simp)

/-! ### Modifiers -/

private theorem xorKey_orders (token : Handle) : Orders held (xorKey token) fun _ => [] := by
  refine .skip (fun _ => rfl) fun tokens => ?_
  split
  · exact .ite (fun _ => .pure (by simp)) fun _ => .never (never_fail _ _)
  · exact .never (never_fail _ _)

private theorem xorModifier_orders (first : Handle) : Orders held (xorModifier first) fun _ => [] := by
  refine .bind (accept_orders _) fun opening => ?_
  cases opening with
  | none => exact .pure (by simp)
  | some _ =>
    refine .bind (expect_orders _) fun token => .bind (xorKey_orders token)
      fun low => .bind (accept_orders _) fun dash => ?_
    have rest {held : List (Handle × Handle)} (high : UInt8) : Orders held (do
        let closing ← expect .closeParen
        return (ModifierKind.xor (some (low, high)), closing)) fun _ =>
          [] := .bind (expect_orders _) fun _ => .pure (by simp)
    cases dash with
    | none => exact rest low
    | some dash =>
      refine .bind (refine_orders _ _) fun _ => .bind (expect_orders _) fun token' =>
        .bind (xorKey_orders token') fun high => ?_
      exact .guard (never_fail _ _) (rest high)

private theorem alphabet_orders (first : Handle) : Orders held (alphabet first) fun _ => [] := by
  refine .bind (accept_orders _) fun opening => ?_
  cases opening with
  | none => exact .pure (by simp)
  | some _ =>
    refine .bind (expect_orders _) fun token => .bind (checkEscapes_orders token) fun _ => .skip (fun _ => rfl)
      fun tokens => ?_
    exact .guard (never_fail _ _) (.bind (expect_orders _) fun closing => .pure (by simp))

private theorem modifier_orders (kind : TokenKind) : Orders held (modifier kind) fun _ => [] := by
  refine .bind advance_orders fun first => ?_
  dsimp only
  split
  · exact .pure (by simp)
  · exact .pure (by simp)
  · exact .pure (by simp)
  · exact .pure (by simp)
  · exact .bind (refine_orders _ _) fun _ => .pure (by simp)
  · exact .bind (xorModifier_orders first) fun _ => .pure (by simp)
  · exact .bind (alphabet_orders first) fun _ => .pure (by simp)
  · exact .bind (alphabet_orders first) fun _ => .pure (by simp)
  · exact .never (never_unexpected _)

private theorem checkModifier_orders (content : StringContent) (before : List StringModifier) (m : StringModifier) :
    Orders held (checkModifier content before m) fun _ => [] := by
  refine .guard (never_fail _ _) (.forM (fun other => ?_) before)
  exact .ite (fun _ => .never (never_fail _ _)) fun _ => .ite (fun _ => .never (never_fail _ _))
    fun _ => .pure (by simp)

private theorem modifiers_orders (content : StringContent) :
    ∀ {held} bound before, Orders held (modifiers content bound before) fun _ => []
  | _, 0, _ => .pure (by simp)
  | _, bound + 1, before => by
    refine .skip (fun _ => rfl) fun next => ?_
    cases next with
    | none => exact .pure (by simp)
    | some kind =>
      refine .ite (fun _ => .bind (modifier_orders kind) fun m => ?_) fun _ => .pure (by simp)
      exact .bind (checkModifier_orders content before m) fun _ => modifiers_orders content bound _

/-! ### Strings -/

private theorem stringContent_orders : Orders held stringContent StringContent.jumps := by
  refine .skip (fun _ => rfl) fun next => ?_
  split
  · exact .bind advance_orders fun token => .bind (checkEscapes_orders token)
      fun _ => .pure (by simp [StringContent.jumps])
  · exact .bind hexString_orders fun string => .pure (by simp [StringContent.jumps])
  · exact .bind advance_orders fun token => .bind (readRegexp_orders token)
      fun _ => .pure (by simp [StringContent.jumps])
  · exact .never (never_unexpected _)

private theorem stringDefinition_orders : Orders held stringDefinition (·.content.jumps) := by
  refine .bind (expect_orders _) fun id => .bind (refine_orders _ _) fun _ => .bind (expect_orders _) fun assign => ?_
  refine .bind stringContent_orders fun content => .skip (fun _ => rfl) fun bound => ?_
  exact .bind (modifiers_orders content bound []) fun modifiers => .pure (by simp)

/-- A string is added whose bounds are in order. -/
theorem Ordered.add {s : State} {string : StringDefinition} (ordered : Ordered held s)
    (known : string.content.jumps ⊆ held) (id : String) :
    Ordered held { s with strings := s.strings.insertAgain id string } := by
  intro pair member
  refine ordered pair ?_
  simp only [State.jumps, NameTrie.values_insertAgain, List.flatMap_append, List.flatMap_singleton,
    List.mem_append] at member ⊢
  rcases member with old | here | new
  · exact .inl old
  · exact .inr here
  · exact .inl (known new)

private theorem addString_orders : Orders held addString fun _ => [] := by
  refine .bind stringDefinition_orders fun string => Ensures.skip (fun _ => rfl)
    fun id => Ensures.bind .get fun st => ?_
  refine Ensures.ite (fun _ => .modify ?_) fun _ => ?_
  · rintro s ⟨rfl, ordered⟩
    exact ordered.add (List.subset_append_left _ _) id
  · unfold NameTrie.insert?
    split
    next strings' found =>
      split_ifs at found
      cases found
      refine Ensures.modify ?_
      rintro s ⟨rfl, ordered⟩
      exact ordered.add (List.subset_append_left _ _) id
    next => exact Ensures.never (never_fail _ _)

private theorem stringSection_orders : Orders held stringSection fun _ => [] := by
  refine .bind (expect_orders _) fun keyword => .bind (expect_orders _) fun colon => .skip (fun _ => rfl) fun _ => ?_
  refine .guard (never_unexpected _) (.skip (fun _ => rfl) fun bound => ?_)
  exact .bind (itemsWhile_orders addString_orders bound) fun _ => .pure (by simp)

theorem optionalStrings_orders : Orders held stringSection? fun _ => [] :=
  .skip (fun _ => rfl) fun _ => .ite (fun _ => .bind stringSection_orders fun _ => .pure (by simp))
    fun _ => .pure (by simp)

end Grammar

end YaraRules
