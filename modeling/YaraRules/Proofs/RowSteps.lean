import YaraRules.Chain
import Mathlib.Data.List.Basic

/-! Steps that lay rows of tokens. Whoever writes or reads tokens one after the other has a
row in place and puts more tokens behind it; what stood before the row is not touched. -/

namespace YaraRules

/-- What it means for a state that a row is in place behind others. -/
structure Standing (σ : Type) where
  holds : List Handle → List Handle → σ → Prop
  /-- Tokens may be left out of a row. -/
  shrink : ∀ {done row fewer s}, fewer.Sublist row → holds done row s → holds done fewer s
  /-- A row is done with. -/
  pass : ∀ {done row s}, holds done row s → holds (done ++ row) [] s
  /-- What was put behind a row belongs to it. -/
  join : ∀ {done row more s s'}, holds done row s → holds (done ++ row) more s' → holds done (row ++ more) s'

/-! ### Steps that succeed -/

theorem bind_done {σ ε α β : Type} {step : StateT σ (Except ε) α} {next : α → StateT σ (Except ε) β} {s s'' : σ} {b : β}
    (done : (step >>= next) s = .ok (b, s'')) : ∃ a s', step s = .ok (a, s') ∧ next a s' = .ok (b, s'') := by
  have run : (step s >>= fun result => next result.1 result.2) = .ok (b, s'') := done
  cases found : step s with
  | error e => simp [found, bind, Except.bind] at run
  | ok result =>
    rw [found] at run
    exact ⟨result.1, result.2, rfl, run⟩

theorem map_done {σ ε α β : Type} {step : StateT σ (Except ε) α} {f : α → β} {s s' : σ} {b : β}
    (done : (f <$> step) s = .ok (b, s')) : ∃ a, step s = .ok (a, s') ∧ f a = b := by
  have run : (step s >>= fun result => Except.ok (f result.1, result.2)) = .ok (b, s') := done
  cases found : step s with
  | error e => simp [found, bind, Except.bind] at run
  | ok result =>
    rw [found] at run
    cases run
    exact ⟨result.1, rfl, rfl⟩

/-- A step that ends with an error. -/
def Never {σ ε α : Type} (step : StateT σ (Except ε) α) : Prop := ∀ s a s', step s ≠ .ok (a, s')

theorem Never.throw {σ ε α : Type} {e : ε} : Never (throw e : StateT σ (Except ε) α) := fun _ _ _ => nofun

theorem Never.bind {σ ε α β : Type} {step : StateT σ (Except ε) α} (never : Never step)
    (next : α → StateT σ (Except ε) β) : Never (step >>= next) := by
  intro s b s' done
  obtain ⟨a, middle, found, _⟩ := bind_done done
  exact never s a middle found

/-- Whatever a step gives has a property. -/
def Gives {σ ε α : Type} (step : StateT σ (Except ε) α) (good : α → Prop) : Prop :=
  ∀ s a s', step s = .ok (a, s') → good a

namespace Gives

variable {σ ε α β : Type} {step : StateT σ (Except ε) α} {next : α → StateT σ (Except ε) β} {good : α → Prop}
  {final : β → Prop}

theorem pure {a : α} (holds : good a) : Gives (pure a : StateT σ (Except ε) α) good := by
  intro s b s' done
  cases done
  exact holds

theorem any : Gives step fun _ => True := fun _ _ _ _ => trivial

theorem bind (first : Gives step good) (rest : ∀ a, good a → Gives (next a) final) : Gives (step >>= next) final := by
  intro s b s'' done
  obtain ⟨a, s', found, run⟩ := bind_done done
  exact rest a (first s a s' found) s' b s'' run

theorem after (rest : ∀ a, Gives (next a) final) : Gives (step >>= next) final := any.bind fun a _ => rest a

theorem map {f : α → β} (holds : ∀ a, final (f a)) : Gives (f <$> step) final := by
  intro s b s' done
  obtain ⟨a, _, rfl⟩ := map_done done
  exact holds a

/-- One of two steps gives something, and the same steps follow. -/
theorem choose {c : Prop} [Decidable c] {other : StateT σ (Except ε) α} (good : α → Prop) (yes : c → Gives step good)
    (no : ¬ c → Gives other good) (rest : ∀ a, good a → Gives (next a) final) :
    Gives (if c then step >>= next else other >>= next) final := by
  split_ifs with holds
  · exact (yes holds).bind rest
  · exact (no holds).bind rest

end Gives

/-- A step that starts with one row in place ends with another one in place. -/
def Lays {σ ε α : Type} (S : Standing σ) (before : List Handle) (step : StateT σ (Except ε) α)
    (after : α → List Handle) : Prop :=
  ∀ s a s', step s = .ok (a, s') → ∀ done, S.holds done before s → S.holds done (after a) s'

namespace Lays

variable {σ ε α β : Type} {S : Standing σ} {before : List Handle} {step : StateT σ (Except ε) α}
  {next : α → StateT σ (Except ε) β} {row after : α → List Handle} {last : β → List Handle}

theorem pure {a : α} (fewer : (after a).Sublist before) : Lays S before (pure a : StateT σ (Except ε) α) after := by
  intro s b s' done front holds
  cases done
  exact S.shrink fewer holds

theorem never (never : Never step) : Lays S before step after :=
  fun s a s' done => absurd done (never s a s')

theorem shrink (lays : Lays S before step row) (fewer : ∀ a, (after a).Sublist (row a)) : Lays S before step after :=
  fun s a s' done front holds => S.shrink (fewer a) (lays s a s' done front holds)

/-- What a step lays comes behind what is in place. -/
theorem behind (lays : Lays S [] step row) (before : List Handle) : Lays S before step fun a => before ++ row a :=
  fun s a s' done _ holds => S.join holds (lays s a s' done _ (S.pass holds))

theorem seq (first : Lays S before step row) (rest : ∀ a, Lays S (row a) (next a) last) :
    Lays S before (step >>= next) last := by
  intro s b s'' done front holds
  obtain ⟨a, s', found, run⟩ := bind_done done
  exact rest a s' b s'' run front (first s a s' found front holds)

theorem bind (first : Lays S [] step row) (rest : ∀ a, Lays S (before ++ row a) (next a) last) :
    Lays S before (step >>= next) last :=
  (first.behind before).seq rest

theorem skip (first : Lays S [] step row) (rest : ∀ a, Lays S before (next a) last) :
    Lays S before (step >>= next) last :=
  ((first.behind before).shrink fun _ => List.sublist_append_left _ _).seq rest

theorem map {f : α → β} (lays : Lays S before step row) (fewer : ∀ a, (last (f a)).Sublist (row a)) :
    Lays S before (f <$> step) last := by
  intro s b s' done front holds
  obtain ⟨a, found, rfl⟩ := map_done done
  exact S.shrink (fewer a) (lays s a s' found front holds)

theorem ite {c : Prop} [Decidable c] {other : StateT σ (Except ε) α} (yes : c → Lays S before step after)
    (no : ¬ c → Lays S before other after) : Lays S before (if c then step else other) after := by
  split_ifs with holds
  · exact yes holds
  · exact no holds

/-- One of two steps lays a row, and the same steps follow. -/
theorem choose {c : Prop} [Decidable c] {other : StateT σ (Except ε) α} (row : α → List Handle)
    (yes : c → Lays S [] step row) (no : ¬ c → Lays S [] other row)
    (rest : ∀ a, Lays S (before ++ row a) (next a) last) :
    Lays S before (if c then step >>= next else other >>= next) last :=
  .ite (fun holds => (yes holds).bind rest) fun fails => (no fails).bind rest

theorem guard {c : Prop} [Decidable c] {stop : StateT σ (Except ε) α} {rest : StateT σ (Except ε) β}
    (never : Never stop) (lays : Lays S before rest last) : Lays S before (if c then stop >>= next else rest) last :=
  .ite (fun _ => .never (never.bind next)) fun _ => lays

/-- Checks of all items lay nothing if none of them does. -/
theorem forM {check : α → StateT σ (Except ε) PUnit} (each : ∀ a, Lays S [] (check a) fun _ => []) (items : List α) :
    Lays S [] (items.forM check) fun _ => [] := by
  induction items with
  | nil => exact .pure (.refl _)
  | cons item rest ih => exact .bind (each item) fun _ => ih

theorem mapM {look : α → StateT σ (Except ε) β} (each : ∀ a, Lays S [] (look a) fun _ => []) (items : List α) :
    Lays S [] (items.mapM look) fun _ => [] := by
  induction items with
  | nil => exact .pure (.refl _)
  | cons item rest ih =>
    rw [List.mapM_cons]
    exact .bind (each item) fun _ => .bind ih fun _ => .pure (.refl _)

end Lays

/-- A step that starts in a state with a property ends in one with another. -/
def Ensures {σ ε α : Type} (pre : σ → Prop) (step : StateT σ (Except ε) α) (post : α → σ → Prop) : Prop :=
  ∀ s a s', step s = .ok (a, s') → pre s → post a s'

namespace Ensures

variable {σ ε α β ι : Type} {step : StateT σ (Except ε) α} {next : α → StateT σ (Except ε) β} {pre : σ → Prop}
  {m post : α → σ → Prop} {last : β → σ → Prop}

theorem pure {a : α} (holds : ∀ s, pre s → post a s) : Ensures pre (pure a : StateT σ (Except ε) α) post := by
  intro s b s' done before
  cases done
  exact holds s before

theorem never (never : Never step) : Ensures pre step post :=
  fun s a s' done => absurd done (never s a s')

theorem bind (first : Ensures pre step m) (rest : ∀ a, Ensures (m a) (next a) last) :
    Ensures pre (step >>= next) last := by
  intro s b s'' done before
  obtain ⟨a, s', found, run⟩ := bind_done done
  exact rest a s' b s'' run (first s a s' found before)

theorem weaken (ensures : Ensures pre step m) (weaker : ∀ a s, m a s → post a s) : Ensures pre step post :=
  fun s a s' done before => weaker a s' (ensures s a s' done before)

/-- Whatever a property of the first state speaks of is the same for the last. -/
theorem each {pre : ι → σ → Prop} (ensures : ∀ i, Ensures (pre i) step post) :
    Ensures (fun s => ∃ i, pre i s) step post :=
  fun s a s' done ⟨i, before⟩ => ensures i s a s' done before

theorem ite {c : Prop} [Decidable c] {other : StateT σ (Except ε) α} (yes : c → Ensures pre step post)
    (no : ¬ c → Ensures pre other post) : Ensures pre (if c then step else other) post := by
  split_ifs with holds
  · exact yes holds
  · exact no holds

theorem consider (enough : σ → Prop) (weaker : ∀ s, pre s → enough s) (ensures : Ensures enough step post) :
    Ensures pre step post :=
  fun s a s' done before => ensures s a s' done (weaker s before)

/-- What does not depend on the state is known from the start. -/
theorem given {p : Prop} (ensures : p → Ensures pre step post) : Ensures (fun s => p ∧ pre s) step post :=
  fun s a s' done before => ensures before.1 s a s' done before.2

theorem guard {c : Prop} [Decidable c] {rest : StateT σ (Except ε) β} (never : Never step)
    (ensures : Ensures pre rest last) : Ensures pre (if c then step >>= next else rest) last :=
  .ite (fun _ => .never (never.bind next)) fun _ => ensures

theorem get : Ensures pre (get : StateT σ (Except ε) σ) fun a s => a = s ∧ pre s := by
  intro s a s' done before
  cases done
  exact ⟨rfl, before⟩

theorem modify {f : σ → σ} {post : PUnit → σ → Prop} (holds : ∀ s, pre s → post ⟨⟩ (f s)) :
    Ensures pre (modify f : StateT σ (Except ε) PUnit) post := by
  intro s a s' done before
  cases done
  exact holds s before

theorem look {seen : σ → α} (same : ∀ s, step s = .ok (seen s, s))
    (rest : ∀ a, Ensures (fun s => seen s = a ∧ pre s) (next a) last) : Ensures pre (step >>= next) last := by
  refine .bind (m := fun a s => seen s = a ∧ pre s) ?_ rest
  intro s a s' done before
  cases (same s).symm.trans done
  exact ⟨rfl, before⟩

theorem skip {seen : σ → α} (same : ∀ s, step s = .ok (seen s, s)) (rest : ∀ a, Ensures pre (next a) last) :
    Ensures pre (step >>= next) last :=
  .look same fun a => .consider _ (fun _ known => known.2) (rest a)

theorem known {seen : σ → α} {a : α} (same : ∀ s, step s = .ok (seen s, s)) (known : ∀ s, pre s → seen s = a)
    (rest : Ensures pre (next a) last) : Ensures pre (step >>= next) last :=
  .look same fun b => .consider (fun s => b = a ∧ pre s) (fun s seen => ⟨seen.1.symm.trans (known s seen.2), seen.2⟩)
    (.given fun same => same ▸ rest)

end Ensures

end YaraRules
