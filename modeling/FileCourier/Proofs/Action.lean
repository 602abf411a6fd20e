import FileCourier.Action

/-!
# Running actions

The result of an action that is made of others, from the results of its parts; what an action does to
a part of the state (`Mirrors`); and what it changes, however it ends, from what its parts change
(`Guarded`).
-/

namespace FileCourier.Action

variable {σ τ α β : Type} {s s' : σ}

theorem bind_ok {x : Action σ α} {f : α → Action σ β} {a : α} (h : x s = (.ok a, s')) :
    (x >>= f) s = f a s' := by
  change ExceptT.bindCont f (x s).1 (x s).2 = f a s'
  rw [h]
  rfl

theorem bind_error {x : Action σ α} {f : α → Action σ β} {e : Fault} (h : x s = (.error e, s')) :
    (x >>= f) s = (.error e, s') := by
  change ExceptT.bindCont f (x s).1 (x s).2 = (.error e, s')
  rw [h]
  rfl

/-- A sequence that succeeds, taken apart. -/
theorem exists_of_bind_ok {x : Action σ α} {f : α → Action σ β} {b : β}
    (h : (x >>= f) s = (.ok b, s')) : ∃ a t, x s = (.ok a, t) ∧ f a t = (.ok b, s') := by
  cases hx : x s with
  | mk result t =>
    cases result with
    | error e =>
      rw [bind_error hx] at h
      cases h
    | ok a => exact ⟨a, t, rfl, (bind_ok hx).symm.trans h⟩

theorem snd_bind_pure (x : Action σ α) (g : α → β) (s : σ) :
    ((x >>= fun a => pure (g a)) s).2 = (x s).2 := by
  cases hx : x s with
  | mk result s' =>
    cases result with
    | error => rw [bind_error hx]
    | ok a =>
      rw [bind_ok hx]
      rfl

@[simp] theorem get_bind (f : σ → Action σ α) (s : σ) : (get >>= f) s = f s s := rfl

theorem ofExcept_ok {ε : Type} {blame : ε → Fault} {r : Except ε α} {a : α} (h : r = .ok a) :
    (ofExcept blame r : Action σ α) s = (.ok a, s) := by
  rw [h]
  rfl

theorem ofExcept_error {ε : Type} {blame : ε → Fault} {r : Except ε α} {e : ε}
    (h : r = .error e) : (ofExcept blame r : Action σ α) s = (.error (blame e), s) := by
  rw [h]
  rfl

theorem eq_some_of_ofOption {fault : Fault} {r : Option α} {a : α}
    (h : ((ofOption fault r : Action σ α) s).1 = .ok a) : r = some a := by
  cases r with
  | none => cases h
  | some b =>
    cases h
    rfl

/-- Actions that change nothing, one after the other. -/
theorem mapM_of_unchanged {l : List α} {f : α → Action σ β} {g : α → β}
    (h : ∀ a ∈ l, f a s = (.ok (g a), s)) : l.mapM f s = (.ok (l.map g), s) := by
  induction l with
  | nil => rfl
  | cons a l ih =>
    rw [List.mapM_cons, bind_ok (h a List.mem_cons_self),
      bind_ok (ih fun a' ha' => h a' (List.mem_cons_of_mem _ ha'))]
    rfl

/-- Actions one after the other, each of which keeps what holds of those before it and of what they
brought. -/
theorem exists_mapM {l : List α} {f : α → Action σ β} {I : List (α × β) → σ → Prop}
    (hstep : ∀ {before a after s}, l = before.map Prod.fst ++ a :: after → I before s →
      ∃ b s', f a s = (.ok b, s') ∧ I (before ++ [(a, b)]) s')
    (h : I [] s) : ∃ done s', done.map Prod.fst = l ∧ l.mapM f s = (.ok (done.map Prod.snd), s') ∧
      I done s' := by
  have run (before : List (α × β)) {after : List α} {s : σ} (hl : l = before.map Prod.fst ++ after)
      (h : I before s) : ∃ later s', later.map Prod.fst = after ∧
        after.mapM f s = (.ok (later.map Prod.snd), s') ∧ I (before ++ later) s' := by
    induction after generalizing before s with
    | nil => exact ⟨[], s, rfl, rfl, by rwa [List.append_nil]⟩
    | cons a after ih =>
      obtain ⟨b, s₁, hfirst, h₁⟩ := hstep hl h
      have hsplit : l = (before ++ [(a, b)]).map Prod.fst ++ after := by
        rw [hl, List.map_append, List.append_cons]
        rfl
      obtain ⟨later, s₂, rfl, hrest, h₂⟩ := ih _ hsplit h₁
      rw [← List.append_cons] at h₂
      refine ⟨(a, b) :: later, s₂, rfl, ?_, h₂⟩
      rw [List.mapM_cons, bind_ok hfirst, bind_ok hrest]
      rfl
  obtain ⟨done, s', hl, hrun, h'⟩ := run [] rfl h
  exact ⟨done, s', hl, hrun, h'⟩

/-- Actions one after the other whose results are known, each of which keeps what holds of those before
it. -/
theorem mapM_run {l : List α} {f : α → Action σ β} {g : α → β} {I : List α → σ → Prop}
    (hstep : ∀ {before a after s}, l = before ++ a :: after → I before s →
      ∃ s', f a s = (.ok (g a), s') ∧ I (before ++ [a]) s')
    (h : I [] s) : ∃ s', l.mapM f s = (.ok (l.map g), s') ∧ I l s' := by
  obtain ⟨done, s', rfl, hrun, hresults, h'⟩ := exists_mapM (f := f) (s := s)
    (I := fun done s => done.map Prod.snd = done.map (fun p => g p.1) ∧ I (done.map Prod.fst) s)
    (fun {before a after s} hl hbefore => by
      obtain ⟨s', hrun, h'⟩ := hstep hl hbefore.2
      refine ⟨g a, s', hrun, ?_, ?_⟩
      · rw [List.map_append, List.map_append, hbefore.1]
        rfl
      · rwa [List.map_append]) ⟨rfl, h⟩
  refine ⟨s', ?_, h'⟩
  rw [hrun, hresults, List.map_map]
  rfl

theorem onDisk_apply {x : Action Disk α} {w : World σ} {result : Except Fault α} {d : Disk}
    (h : x w.disk = (result, d)) : onDisk x w = (result, { w with disk := d }) := by
  rw [onDisk, h]

/-! ## Actions on a part of the state -/

/-- An action does on a part of the state what another one does on all of it. -/
def Mirrors (part : τ → σ) (x : Action σ α) (y : Action τ α) : Prop :=
  ∀ t, x (part t) = ((y t).1, part (y t).2)

section

variable {part : τ → σ} {x : Action σ α} {y : Action τ α} {f : α → Action σ β} {g : α → Action τ β}

theorem mirrors_pure (a : α) : Mirrors part (pure a) (pure a) := fun _ => rfl

theorem mirrors_throw (e : Fault) : Mirrors part (throw e : Action σ α) (throw e) := fun _ => rfl

theorem mirrors_ofOption (fault : Fault) (r : Option α) :
    Mirrors part (ofOption fault r) (ofOption fault r) := by
  cases r <;> exact fun _ => rfl

theorem Mirrors.bind (hx : Mirrors part x y) (hf : ∀ a, Mirrors part (f a) (g a)) :
    Mirrors part (x >>= f) (y >>= g) := by
  intro t
  have hfirst := hx t
  cases hy : y t with
  | mk result t' =>
    rw [hy] at hfirst
    cases result with
    | error e => rw [bind_error hfirst, bind_error hy]
    | ok a => rw [bind_ok hfirst, bind_ok hy, hf a t']

theorem Mirrors.map (hx : Mirrors part x y) (k : α → β) :
    Mirrors part (x >>= fun a => pure (k a)) (y >>= fun a => pure (k a)) :=
  hx.bind fun _ => mirrors_pure _

theorem mirrors_get_bind {f : σ → Action σ β} {g : τ → Action τ β}
    (h : ∀ t, Mirrors part (f (part t)) (g t)) : Mirrors part (get >>= f) (get >>= g) := fun t => by
  rw [get_bind, get_bind, h t t]

theorem mirrors_mapM {l : List α} (h : ∀ a ∈ l, Mirrors part (f a) (g a)) :
    Mirrors part (l.mapM f) (l.mapM g) := by
  induction l with
  | nil => exact mirrors_pure []
  | cons a l ih =>
    rw [List.mapM_cons, List.mapM_cons]
    exact (h a List.mem_cons_self).bind fun _ =>
      (ih fun a' ha' => h a' (List.mem_cons_of_mem _ ha')).map _

theorem Mirrors.reached (h : Mirrors part x y) : Mirrors part x.reached y.reached := fun t => by
  rw [Action.reached, Action.reached, h t]
  cases y t with
  | mk result t' =>
    cases result with
    | ok a => rfl
    | error e => cases e <;> rfl

/-- The world, of whose other side only a part is seen. -/
def beyondPart (part : τ → σ) (w : World τ) : World σ := ⟨w.disk, part w.beyond⟩

theorem mirrors_onDisk (x : Action Disk α) :
    Mirrors (beyondPart part) (onDisk x) (onDisk x) := fun _ => rfl

theorem Mirrors.onBeyond (h : Mirrors part x y) :
    Mirrors (beyondPart part) (Action.onBeyond x) (Action.onBeyond y) := fun w => by
  rw [Action.onBeyond, Action.onBeyond, beyondPart, h w.beyond]
  rfl

end

/-! ## What actions change -/

/-- What is to hold between actions, and the changes that they may make, however they end. -/
structure Guard (σ : Type) where
  holds : σ → Prop
  changes : σ → σ → Prop
  refl : ∀ s, changes s s
  trans : ∀ {s s' s''}, changes s s' → changes s' s'' → changes s s''

/-- The action makes no other changes, and when it succeeds, the guard holds again. -/
def Guarded (G : Guard σ) (x : Action σ α) : Prop :=
  ∀ s, G.holds s → G.changes s (x s).2 ∧ ∀ a, (x s).1 = .ok a → G.holds (x s).2

section

variable {G : Guard σ} {x : Action σ α} {f : α → Action σ β}

theorem guarded_of_unchanged (h : ∀ s, (x s).2 = s) : Guarded G x := by
  intro s hs
  rw [h]
  exact ⟨G.refl s, fun _ _ => hs⟩

theorem guarded_pure (a : α) : Guarded G (pure a : Action σ α) := guarded_of_unchanged fun _ => rfl

theorem guarded_ofOption (fault : Fault) (r : Option α) :
    Guarded G (ofOption fault r : Action σ α) := by
  cases r <;> exact guarded_of_unchanged fun _ => rfl

theorem Guarded.bind (hx : Guarded G x) (hf : ∀ s a, (x s).1 = .ok a → Guarded G (f a)) :
    Guarded G (x >>= f) := by
  intro s hs
  obtain ⟨hfirst, hholds⟩ := hx s hs
  cases hrun : x s with
  | mk result s' =>
    rw [hrun] at hfirst hholds
    cases result with
    | error e =>
      rw [bind_error hrun]
      exact ⟨hfirst, nofun⟩
    | ok a =>
      rw [bind_ok hrun]
      obtain ⟨hlast, hend⟩ := hf s a (by rw [hrun]) s' (hholds a rfl)
      exact ⟨G.trans hfirst hlast, hend⟩

theorem Guarded.map (hx : Guarded G x) (g : α → β) :
    Guarded G (x >>= fun a => pure (g a)) := hx.bind fun _ _ _ => guarded_pure _

theorem guarded_mapM {l : List α} (h : ∀ a ∈ l, Guarded G (f a)) : Guarded G (l.mapM f) := by
  induction l with
  | nil => exact guarded_pure []
  | cons a l ih =>
    rw [List.mapM_cons]
    refine (h a List.mem_cons_self).bind fun _ b _ => ?_
    exact (ih fun a' ha' => h a' (List.mem_cons_of_mem _ ha')).map _

end

/-! ## The disk in the world -/

/-- A guard of the disk, whatever happens beyond it. -/
def Guard.inWorld (G : Guard Disk) : Guard (World σ) where
  holds w := G.holds w.disk
  changes w w' := G.changes w.disk w'.disk
  refl _ := G.refl _
  trans h h' := G.trans h h'

variable {G : Guard Disk}

theorem guarded_of_disk_eq {x : Action (World σ) α} (h : ∀ w, (x w).2.disk = w.disk) :
    Guarded G.inWorld x := by
  intro w hw
  change G.changes w.disk _ ∧ ∀ a, _ → G.holds _
  rw [h]
  exact ⟨G.refl _, fun _ _ => hw⟩

theorem guarded_onDisk {x : Action Disk α} (h : Guarded G x) :
    Guarded G.inWorld (onDisk x : Action (World σ) α) := fun w hw => h w.disk hw

end FileCourier.Action
