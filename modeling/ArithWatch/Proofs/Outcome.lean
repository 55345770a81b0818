import ArithWatch.IR.Edit

namespace ArithWatch

/-!
# Outcomes of computations in parts

A computation that may fail succeeds exactly if its parts do, one after the other.

* `except_bind_eq_ok`, `except_mapError_eq_ok` and `except_forM_eq_ok` take apart a computation in
  `Except`.
* `Edit.bind_eq` runs the second part of an edit from where the first one ended, and
  `Edit.mapM_exists` all parts of a walk.
* `Edit.Keeps` says that an edit keeps a property wherever it does not fault; a composed edit keeps
  what its parts keep.
-/

/-- Both parts succeed. -/
theorem except_bind_eq_ok {ε α β : Type} {x : Except ε α} {k : α → Except ε β} {b : β} :
    x >>= k = .ok b ↔ ∃ a, x = .ok a ∧ k a = .ok b := by
  cases x with
  | error e => exact ⟨nofun, fun ⟨a, h, _⟩ => nomatch h⟩
  | ok a =>
    refine ⟨fun h => ⟨a, rfl, h⟩, fun ⟨a', h, hk⟩ => ?_⟩
    cases h
    exact hk

/-- A first part without a result of interest. -/
theorem except_seq_eq_ok {ε β : Type} {x : Except ε Unit} {k : Unit → Except ε β} {b : β} :
    x >>= k = .ok b ↔ x = .ok () ∧ k () = .ok b := by
  rw [except_bind_eq_ok]
  exact ⟨fun ⟨(), h, hk⟩ => ⟨h, hk⟩, fun ⟨h, hk⟩ => ⟨(), h, hk⟩⟩

/-- A check of every item of a list. -/
theorem except_forM_eq_ok {ε α : Type} {items : List α} {check : α → Except ε Unit} :
    items.forM check = .ok () ↔ ∀ a ∈ items, check a = .ok () := by
  induction items with
  | nil => simp [pure, Except.pure]
  | cons a rest ih =>
    show (check a >>= fun _ => rest.forM check) = .ok () ↔ _
    rw [except_seq_eq_ok, List.forall_mem_cons, ih]

/-- A check of every item of a list fails as it does at the first item that fails. -/
theorem except_forM_eq_error {ε α : Type} {items : List α} {check : α → Except ε Unit} {e : ε} :
    items.forM check = .error e ↔ ∃ before a after, items = before ++ a :: after ∧
      (∀ b ∈ before, check b = .ok ()) ∧ check a = .error e := by
  constructor
  · intro h
    -- By induction on the items up to the first that fails.
    induction items with
    | nil => cases h
    | cons a rest ih =>
      change (check a >>= fun _ => rest.forM check) = .error e at h
      cases ha : check a with
      | error d =>
        rw [ha] at h
        cases h
        exact ⟨[], a, rest, rfl, nofun, ha⟩
      | ok =>
        rw [ha] at h
        obtain ⟨before, b, after, rfl, hbefore, hb⟩ := ih h
        exact ⟨a :: before, b, after, rfl, List.forall_mem_cons.2 ⟨ha, hbefore⟩, hb⟩
  · rintro ⟨before, a, after, rfl, hbefore, ha⟩
    induction before with
    | nil =>
      show (check a >>= fun _ => after.forM check) = .error e
      rw [ha]
      rfl
    | cons b before ih =>
      obtain ⟨hb, hrest⟩ := List.forall_mem_cons.1 hbefore
      show (check b >>= fun _ => (before ++ a :: after).forM check) = .error e
      rw [hb]
      exact ih hrest

/-- A walk succeeds if it does at every item. -/
theorem except_mapM_exists {ε α β : Type} {items : List α} {g : α → Except ε β}
    (h : ∀ a ∈ items, ∃ b, g a = .ok b) : ∃ bs, items.mapM g = .ok bs := by
  induction items with
  | nil => exact ⟨[], rfl⟩
  | cons a rest ih =>
    obtain ⟨b, hb⟩ := h a List.mem_cons_self
    obtain ⟨bs, hbs⟩ := ih fun c hc => h c (List.mem_cons_of_mem _ hc)
    exact ⟨b :: bs, by rw [List.mapM_cons, hb, hbs]; rfl⟩

/-- What is read off the results of a walk is what is read off its items. -/
theorem except_mapM_map {ε α β γ : Type} {items : List α} {g : α → Except ε β} {p : β → γ}
    {q : α → γ} (h : ∀ a b, g a = .ok b → p b = q a) {bs : List β}
    (hrun : items.mapM g = .ok bs) : bs.map p = items.map q := by
  induction items generalizing bs with
  | nil =>
    cases hrun
    rfl
  | cons a rest ih =>
    rw [List.mapM_cons] at hrun
    obtain ⟨b, hb, hrun⟩ := except_bind_eq_ok.1 hrun
    obtain ⟨bs', hbs', hrun⟩ := except_bind_eq_ok.1 hrun
    cases hrun
    rw [List.map_cons, List.map_cons, h a b hb, ih hbs']

/-- Renaming errors leaves results. -/
theorem except_mapError_eq_ok {ε ε' α : Type} {x : Except ε α} {g : ε → ε'} {a : α} :
    x.mapError g = .ok a ↔ x = .ok a := by
  cases x with
  | error e => exact ⟨nofun, nofun⟩
  | ok b =>
    show Except.ok b = Except.ok a ↔ _
    rw [Except.ok.injEq, Except.ok.injEq]

/-- An error that was renamed comes from an error. -/
theorem except_mapError_eq_error {ε ε' α : Type} {x : Except ε α} {g : ε → ε'} {e : ε'} :
    x.mapError g = .error e ↔ ∃ d, x = .error d ∧ g d = e := by
  cases x with
  | error d =>
    show Except.error (g d) = Except.error e ↔ _
    simp
  | ok a => exact ⟨nofun, fun ⟨_, h, _⟩ => nomatch h⟩

namespace Edit

variable {α β : Type} {m : Edit α} {k : α → Edit β} {a : α} {f g : Function}

/-- The second part starts where the first one ended. -/
theorem bind_eq (h : m f = .ok a g) : (m >>= k) f = k a g := by
  show EStateM.bind m k f = k a g
  rw [EStateM.bind, h]

/-- An edit in two parts succeeds only if both parts do. -/
theorem bind_eq_ok {b : β} {h : Function} (hrun : (m >>= k) f = .ok b h) :
    ∃ a g, m f = .ok a g ∧ k a g = .ok b h := by
  cases hfirst : m f with
  | ok a g => exact ⟨a, g, rfl, (bind_eq hfirst).symm.trans hrun⟩
  | error fault g =>
    have hfault : (m >>= k) f = .error fault g := by
      show EStateM.bind m k f = _
      rw [EStateM.bind, hfirst]
    rw [hfault] at hrun
    cases hrun

theorem map_eq (h : m f = .ok a g) (c : α → β) : (c <$> m) f = .ok (c a) g := by
  show EStateM.map c m f = .ok (c a) g
  rw [EStateM.map, h]

theorem map_eq_ok {c : α → β} (h : (c <$> m) f = .ok b g) : ∃ a, m f = .ok a g ∧ c a = b := by
  change EStateM.map c m f = .ok b g at h
  rw [EStateM.map] at h
  cases hrun : m f with
  | ok a f' =>
    rw [hrun] at h
    cases h
    exact ⟨a, rfl, rfl⟩
  | error fault f' =>
    rw [hrun] at h
    cases h

/-- A walk that keeps what its steps need succeeds if they do. -/
theorem mapM_exists {step : α → Edit β} {items : List α} (P : Function → Prop)
    (h : ∀ a ∈ items, ∀ f, P f → ∃ b g, step a f = .ok b g ∧ P g) (hf : P f) :
    ∃ bs g, items.mapM step f = .ok bs g ∧ P g := by
  induction items generalizing f with
  | nil => exact ⟨[], f, rfl, hf⟩
  | cons a rest ih =>
    obtain ⟨b, g, hstep, hg⟩ := h a List.mem_cons_self f hf
    obtain ⟨bs, g', hrest, hg'⟩ := ih (fun c hc => h c (List.mem_cons_of_mem _ hc)) hg
    refine ⟨b :: bs, g', ?_, hg'⟩
    rw [List.mapM_cons, bind_eq hstep, bind_eq hrest]
    rfl

/-- A question with an answer changes nothing. -/
theorem query_eq {ask : Function → Except Fault α} (h : ask f = .ok a) :
    query ask f = .ok a f := by
  rw [query, h]

/-- A query reads the function and leaves it. -/
theorem query_eq_ok {ask : Function → Except Fault α} (h : query ask f = .ok a g) :
    ask f = .ok a ∧ g = f := by
  rw [query] at h
  cases hask : ask f with
  | ok a' =>
    rw [hask] at h
    cases h
    exact ⟨rfl, rfl⟩
  | error fault =>
    rw [hask] at h
    cases h

/-! ### What edits keep -/

/-- Where the edit does not fault, it leads from functions with the property to functions with the
    property. -/
def Keeps {α : Type} (P : Function → Prop) (m : Edit α) : Prop :=
  ∀ f a g, m f = .ok a g → P f → P g

namespace Keeps

variable {P : Function → Prop}

protected theorem pure (a : α) : Keeps P (pure a : Edit α) := by
  intro f b g h hf
  cases h
  exact hf

protected theorem throw (fault : Fault) : Keeps P (throw fault : Edit α) :=
  fun _ _ _ h => nomatch h

protected theorem query (ask : Function → Except Fault α) : Keeps P (query ask) := by
  intro f a g h hf
  rw [(query_eq_ok h).2]
  exact hf

protected theorem get : Keeps P (get : Edit Function) := by
  intro f a g h hf
  cases h
  exact hf

protected theorem bind (hm : Keeps P m) (hk : ∀ a, Keeps P (k a)) : Keeps P (m >>= k) := by
  intro f b h hrun hf
  obtain ⟨a, g, hfirst, hsecond⟩ := bind_eq_ok hrun
  exact hk a g b h hsecond (hm f a g hfirst hf)

/-- It plays no part what is made of the result. -/
theorem of_map {c : α → β} (h : Keeps P (c <$> m)) : Keeps P m :=
  fun f _ g hrun hf => h f _ g (map_eq hrun c) hf

protected theorem discard (hm : Keeps P m) : Keeps P (discard m) :=
  hm.bind fun _ => .pure ()

protected theorem mapM {step : α → Edit β} {items : List α} (h : ∀ a ∈ items, Keeps P (step a)) :
    Keeps P (items.mapM step) := by
  induction items with
  | nil => exact .pure []
  | cons a rest ih =>
    rw [List.mapM_cons]
    exact (h a List.mem_cons_self).bind fun _ =>
      (ih fun c hc => h c (List.mem_cons_of_mem _ hc)).bind fun _ => .pure _

protected theorem foldlM {step : β → α → Edit β} {items : List α}
    (h : ∀ b, ∀ a ∈ items, Keeps P (step b a)) (b : β) : Keeps P (items.foldlM step b) := by
  induction items generalizing b with
  | nil => exact .pure b
  | cons a rest ih =>
    rw [List.foldlM_cons]
    exact (h b a List.mem_cons_self).bind fun c =>
      ih (fun b a ha => h b a (List.mem_cons_of_mem _ ha)) c

end Keeps

end Edit

end ArithWatch
