import KernelCore.Proofs.Paging.Walk

/-!
# Memories that answer walks alike

Two memories that are related answer a walk alike and stay related, if each of their primitives does
so. Nothing is claimed from the point on where the first memory faults. A memory that faults outside
a set of frames, as `Confined` does, therefore tells which walks stay inside the set.
-/

namespace KernelCore

namespace Paging

variable {σ τ α β : Type} {R : σ → τ → Prop} {s : σ} {t : τ} {v : VirtAddr} {level : LinkLevel}

/-- The second memory is asked nothing once the first one has faulted. -/
inductive Answers : Except Halt α → Except Halt α → Prop
  | same (x : Except Halt α) : Answers x x
  | fault (x : Except Halt α) : Answers (.error .fault) x

/-- What becomes of two related memories that are written to. -/
inductive Writes (R : σ → τ → Prop) : Except Halt (Option σ) → Except Halt (Option τ) → Prop
  | done {s : σ} {t : τ} (related : R s t) : Writes R (.ok (some s)) (.ok (some t))
  | refused : Writes R (.ok none) (.ok none)
  | stopped (halt : Halt) : Writes R (.error halt) (.error halt)
  | fault (x : Except Halt (Option τ)) : Writes R (.error .fault) x

/-- What becomes of two related memories in an operation that yields a result. -/
inductive Results (R : σ → τ → Prop) :
    EStateM.Result Halt σ α → EStateM.Result Halt τ α → Prop
  | done {s : σ} {t : τ} (x : α) (related : R s t) : Results R (.ok x s) (.ok x t)
  | stopped {s : σ} {t : τ} (halt : Halt) (related : R s t) :
      Results R (.error halt s) (.error halt t)
  | fault (s : σ) (r : EStateM.Result Halt τ α) : Results R (.error .fault s) r

/-- Related memories answer every primitive alike. -/
structure Simulates [TableMemory σ] [TableMemory τ] (R : σ → τ → Prop) : Prop where
  root : ∀ s t, R s t → TableMemory.root s = TableMemory.root t
  holds : ∀ f s t, R s t → Answers (TableMemory.holds s f) (TableMemory.holds t f)
  read : ∀ f i s t, R s t → Answers (TableMemory.read s f i) (TableMemory.read t f i)
  write : ∀ f i e s t, R s t → Writes R (TableMemory.write s f i e) (TableMemory.write t f i e)
  clear : ∀ f s t, R s t → Writes R (TableMemory.clear s f) (TableMemory.clear t f)
  invalidate : ∀ v s t, R s t → R (TableMemory.invalidate s v) (TableMemory.invalidate t v)
  allocateFrame : ∀ s t, R s t →
    Results R ((TableMemory.allocateFrame : EStateM Halt σ (Option Frame)) s)
      ((TableMemory.allocateFrame : EStateM Halt τ (Option Frame)) t)

/-! ## Walks that only read -/

theorem Answers.bind {x y : Lookup α} {p q : α → Lookup β} (hx : Answers x y)
    (hp : ∀ a, Answers (p a) (q a)) : Answers (x >>= p : Lookup β) (y >>= q : Lookup β) := by
  cases hx with
  | fault => exact .fault _
  | same =>
    cases x with
    | error halt => exact .same _
    | ok r =>
      cases r with
      | error e => exact .same _
      | ok a => exact hp a

section Lookups

variable [TableMemory σ] [TableMemory τ]

theorem Simulates.entry (h : Simulates R) (f : Frame) (i : TableIndex) (level : LinkLevel) (s : σ)
    (t : τ) (hR : R s t) : Answers (entry s f i level) (entry t f i level) := by
  unfold Paging.entry
  have hread := h.read f i s t hR
  generalize TableMemory.read s f i = x at hread ⊢
  generalize TableMemory.read t f i = y at hread ⊢
  cases hread with
  | same => exact .same _
  | fault => exact .fault _

theorem Simulates.rootTable (h : Simulates R) (s : σ) (t : τ) (hR : R s t) :
    Answers (rootTable s) (rootTable t) := by
  unfold Paging.rootTable
  rw [h.root s t hR]
  cases TableMemory.root t with
  | none => exact .same _
  | some f =>
    have hholds := h.holds f s t hR
    simp only
    generalize TableMemory.holds s f = x at hholds ⊢
    generalize TableMemory.holds t f = y at hholds ⊢
    cases hholds with
    | same => exact .same _
    | fault => exact .fault _

theorem Simulates.follow (h : Simulates R) (v : VirtAddr) (f : Frame) (level : LinkLevel) (s : σ)
    (t : τ) (hR : R s t) : Answers (follow s v f level) (follow t v f level) :=
  (h.entry f (level.index v) level s t hR).bind fun _ => .same _

theorem Simulates.leafTable (h : Simulates R) (v : VirtAddr) (s : σ) (t : τ) (hR : R s t) :
    Answers (leafTable s v) (leafTable t v) :=
  (h.rootTable s t hR).bind fun pml4 => (h.follow v pml4 .pml4 s t hR).bind fun pdpt =>
    (h.follow v pdpt .pdpt s t hR).bind fun pd => h.follow v pd .pd s t hR

theorem Simulates.leaf (h : Simulates R) (v : VirtAddr) (s : σ) (t : τ) (hR : R s t) :
    Answers (leaf s v) (leaf t v) :=
  (h.leafTable v s t hR).bind fun pt => h.entry pt v.leafIndex .pd s t hR

theorem Simulates.translate (h : Simulates R) (v : VirtAddr) (s : σ) (t : τ) (hR : R s t) :
    Answers (translate s v) (translate t v) := by
  unfold Paging.translate
  have hleaf := h.leaf v s t hR
  generalize Paging.leaf s v = x at hleaf ⊢
  generalize Paging.leaf t v = y at hleaf ⊢
  cases hleaf with
  | same => exact .same _
  | fault => exact .fault _

end Lookups

/-! ## Walks that change tables -/

/-- From related memories the two walks end alike. -/
def Parallel (R : σ → τ → Prop) (x : Walk σ α) (y : Walk τ α) : Prop :=
  ∀ s t, R s t → Results R (x s) (y t)

theorem Parallel.bind {x : Walk σ α} {y : Walk τ α} {p : α → Walk σ β} {q : α → Walk τ β}
    (hx : Parallel R x y) (hp : ∀ a, Parallel R (p a) (q a)) :
    Parallel R (x >>= p) (y >>= q) := by
  intro s t hR
  have hfirst := hx s t hR
  simp only [Bind.bind, ExceptT.bind, ExceptT.mk, EStateM.bind]
  generalize x s = r at hfirst ⊢
  generalize y t = r' at hfirst ⊢
  cases hfirst with
  | fault => exact .fault _ _
  | stopped halt related => exact .stopped halt related
  | done a related =>
    cases a with
    | error e => exact .done _ related
    | ok a => exact hp a _ _ related

theorem Parallel.pure (a : α) : Parallel R (pure a : Walk σ α) (pure a : Walk τ α) :=
  fun _ _ hR => .done _ hR

theorem Parallel.throw (e : PagingError) :
    Parallel R (throw e : Walk σ α) (throw e : Walk τ α) :=
  fun _ _ hR => .done _ hR

theorem Parallel.look {p : σ → Lookup α} {q : τ → Lookup α}
    (h : ∀ s t, R s t → Answers (p s) (q t)) : Parallel R (look p) (look q) := by
  intro s t hR
  have hpq := h s t hR
  unfold Paging.look
  generalize p s = x at hpq ⊢
  generalize q t = y at hpq ⊢
  cases hpq with
  | fault => exact .fault _ _
  | same =>
    cases x with
    | error halt => exact .stopped halt hR
    | ok r => exact .done r hR

theorem Parallel.change {p : σ → Except Halt (Option σ)} {q : τ → Except Halt (Option τ)}
    (h : ∀ s t, R s t → Writes R (p s) (q t)) (level : LinkLevel) :
    Parallel R (change p level) (change q level) := by
  intro s t hR
  have hpq := h s t hR
  unfold Paging.change
  generalize p s = x at hpq ⊢
  generalize q t = y at hpq ⊢
  cases hpq with
  | done related => exact .done _ related
  | refused => exact .done _ hR
  | stopped halt => exact .stopped halt hR
  | fault => exact .fault _ _

theorem Parallel.lift {x : EStateM Halt σ α} {y : EStateM Halt τ α}
    (h : ∀ s t, R s t → Results R (x s) (y t)) :
    Parallel R (liftM x : Walk σ α) (liftM y : Walk τ α) := by
  intro s t hR
  have hxy := h s t hR
  simp only [liftM, monadLift, MonadLift.monadLift, ExceptT.lift, ExceptT.mk, Functor.map,
    EStateM.map]
  generalize x s = r at hxy ⊢
  generalize y t = r' at hxy ⊢
  cases hxy with
  | done a related => exact .done _ related
  | stopped halt related => exact .stopped halt related
  | fault => exact .fault _ _

section Walks

variable [TableMemory σ] [TableMemory τ]

theorem Simulates.followOrMake (h : Simulates R) (v : VirtAddr) (f : Frame) (level : LinkLevel) :
    Parallel R (followOrMake v f level) (followOrMake v f level) := by
  refine (Parallel.look (h.entry f (level.index v) level)).bind fun e => ?_
  split
  · exact .look fun _ _ _ => .same _
  · refine (Parallel.lift h.allocateFrame).bind fun r => ?_
    cases r with
    | none => exact .throw _
    | some g =>
      exact (Parallel.change (h.clear g) level).bind fun _ =>
        (Parallel.change (h.write f (level.index v) (.link g)) level).bind fun _ => .pure g

/-- The leaf is written, and then the page is invalidated. -/
theorem Simulates.writeLeaf (h : Simulates R) (v : VirtAddr) (f : Frame) (e : Entry) :
    Parallel R
      (do change (TableMemory.write · f v.leafIndex e) .pd; modify (TableMemory.invalidate · v))
      (do change (TableMemory.write · f v.leafIndex e) .pd; modify (TableMemory.invalidate · v)) :=
  (Parallel.change (h.write f v.leafIndex e) .pd).bind fun _ s t hR =>
    .done _ (h.invalidate v s t hR)

theorem Simulates.map (h : Simulates R) (v : VirtAddr) (p : PhysAddr) (attributes : UInt64) :
    Parallel R (map v p attributes) (map v p attributes) := by
  unfold Paging.map
  split
  · exact .throw _
  · refine (Parallel.look h.rootTable).bind fun pml4 => ?_
    refine (h.followOrMake v pml4 .pml4).bind fun pdpt => ?_
    refine (h.followOrMake v pdpt .pdpt).bind fun pd => ?_
    refine (h.followOrMake v pd .pd).bind fun pt => ?_
    refine (Parallel.look (h.entry pt v.leafIndex .pd)).bind fun e => ?_
    split
    · exact .throw _
    · exact h.writeLeaf v pt _

theorem Simulates.unmap (h : Simulates R) (v : VirtAddr) : Parallel R (unmap v) (unmap v) := by
  unfold Paging.unmap
  split
  · exact .throw _
  · refine (Parallel.look (h.leafTable v)).bind fun pt => ?_
    refine (Parallel.look (h.entry pt v.leafIndex .pd)).bind fun e => ?_
    split
    · exact h.writeLeaf v pt _
    · exact .throw _

end Walks

/-! ## Calls -/

/-- A call to the mapper. -/
inductive Call
  | map (v : VirtAddr) (p : PhysAddr) (attributes : UInt64)
  | unmap (v : VirtAddr)
  | translate (v : VirtAddr)

/-- What a call answers, with errors of some type. -/
inductive Answer (ε : Type)
  | changed (r : Except ε Unit)
  | found (p : Option PhysAddr)

/-- The answer with its error put into another one. -/
def Answer.wrap {ε δ : Type} (f : ε → δ) : Answer ε → Answer δ
  | .changed r => .changed (r.mapError f)
  | .found p => .found p

theorem Results.map {x : EStateM Halt σ α} {y : EStateM Halt τ α}
    (h : Results R (x s) (y t)) (f : α → β) : Results R ((f <$> x) s) ((f <$> y) t) := by
  simp only [Functor.map, EStateM.map]
  generalize x s = r at h ⊢
  generalize y t = r' at h ⊢
  cases h with
  | done a related => exact .done _ related
  | stopped halt related => exact .stopped halt related
  | fault => exact .fault _ _

section Calls

variable [TableMemory σ] [TableMemory τ]

/-- Makes a call over any memory that holds page tables. -/
def Call.onTables : Call → EStateM Halt σ (Answer PagingError)
  | .map v p attributes => .changed <$> (Paging.map v p attributes).run
  | .unmap v => .changed <$> (Paging.unmap v).run
  | .translate v => fun s =>
    match Paging.translate s v with
    | .error halt => .error halt s
    | .ok p => .ok (.found p) s

theorem Simulates.call (h : Simulates R) (call : Call) (s : σ) (t : τ) (hR : R s t) :
    Results R (call.onTables s) (call.onTables t) := by
  cases call with
  | map v p attributes => exact (h.map v p attributes s t hR).map _
  | unmap v => exact (h.unmap v s t hR).map _
  | translate v =>
    have htranslate := h.translate v s t hR
    simp only [Call.onTables]
    generalize Paging.translate s v = x at htranslate ⊢
    generalize Paging.translate t v = y at htranslate ⊢
    cases htranslate with
    | fault => exact .fault _ _
    | same =>
      cases x with
      | error halt => exact .stopped halt hR
      | ok p => exact .done _ hR

end Calls

/-! ## Walks that stay inside a set of frames -/

/-- A memory whose tables outside a set of frames are not to be touched. -/
structure Confined (σ : Type) (within : Frame → Bool) where
  memory : σ

namespace Confined

variable {within : Frame → Bool}

instance [TableMemory σ] : TableMemory (Confined σ within) where
  root c := TableMemory.root c.memory
  holds c f := if within f then TableMemory.holds c.memory f else .error .fault
  read c f i := if within f then TableMemory.read c.memory f i else .error .fault
  write c f i e :=
    if within f then (TableMemory.write c.memory f i e).map (·.map .mk) else .error .fault
  clear c f := if within f then (TableMemory.clear c.memory f).map (·.map .mk) else .error .fault
  invalidate c v := ⟨TableMemory.invalidate c.memory v⟩
  allocateFrame c :=
    match (TableMemory.allocateFrame : EStateM Halt σ (Option Frame)) c.memory with
    | .ok f m => .ok f ⟨m⟩
    | .error halt m => .error halt ⟨m⟩

variable [TableMemory σ] [TableMemory τ]

/-- Related memories answer every primitive alike that concerns a frame of the set. -/
structure AgreesWithin (within : Frame → Bool) (R : σ → τ → Prop) : Prop where
  root : ∀ s t, R s t → TableMemory.root s = TableMemory.root t
  holds : ∀ f s t, within f = true → R s t → TableMemory.holds s f = TableMemory.holds t f
  read : ∀ f i s t, within f = true → R s t → TableMemory.read s f i = TableMemory.read t f i
  write : ∀ f i e s t, within f = true → R s t →
    Writes R (TableMemory.write s f i e) (TableMemory.write t f i e)
  clear : ∀ f s t, within f = true → R s t →
    Writes R (TableMemory.clear s f) (TableMemory.clear t f)
  invalidate : ∀ v s t, R s t → R (TableMemory.invalidate s v) (TableMemory.invalidate t v)
  allocateFrame : ∀ s t, R s t →
    Results R ((TableMemory.allocateFrame : EStateM Halt σ (Option Frame)) s)
      ((TableMemory.allocateFrame : EStateM Halt τ (Option Frame)) t)

omit [TableMemory σ] [TableMemory τ] in
theorem writes_map {x : Except Halt (Option σ)} {y : Except Halt (Option τ)} (h : Writes R x y) :
    Writes (fun (c : Confined σ within) t => R c.memory t) (x.map (·.map .mk)) y := by
  cases h with
  | done related => exact .done related
  | refused => exact .refused
  | stopped halt => exact .stopped halt
  | fault => exact .fault _

/-- Confined to the set, a memory is simulated by every memory that agrees with it there. -/
theorem AgreesWithin.simulates (h : AgreesWithin within R) :
    Simulates fun (c : Confined σ within) t => R c.memory t where
  root c t hR := h.root c.memory t hR
  holds f c t hR := by
    simp only [TableMemory.holds]
    split
    · rename_i hf
      rw [h.holds f c.memory t hf hR]
      exact .same _
    · exact .fault _
  read f i c t hR := by
    simp only [TableMemory.read]
    split
    · rename_i hf
      rw [h.read f i c.memory t hf hR]
      exact .same _
    · exact .fault _
  write f i e c t hR := by
    simp only [TableMemory.write]
    split
    · rename_i hf
      exact writes_map (h.write f i e c.memory t hf hR)
    · exact .fault _
  clear f c t hR := by
    simp only [TableMemory.clear]
    split
    · rename_i hf
      exact writes_map (h.clear f c.memory t hf hR)
    · exact .fault _
  invalidate v c t hR := h.invalidate v c.memory t hR
  allocateFrame c t hR := by
    have hallocate := h.allocateFrame c.memory t hR
    simp only [TableMemory.allocateFrame]
    generalize TableMemory.allocateFrame c.memory = r at hallocate ⊢
    generalize TableMemory.allocateFrame t = r' at hallocate ⊢
    cases hallocate with
    | done f related => exact .done f related
    | stopped halt related => exact .stopped halt related
    | fault => exact .fault _ _

/-- Every memory agrees with itself. -/
theorem agreesWithin_refl : AgreesWithin (σ := σ) within (· = ·) where
  root := by
    rintro m _ rfl
    rfl
  holds := by
    rintro f m _ - rfl
    rfl
  read := by
    rintro f i m _ - rfl
    rfl
  write := by
    rintro f i e m _ - rfl
    rcases TableMemory.write m f i e with halt | _ | m'
    · exact .stopped halt
    · exact .refused
    · exact .done rfl
  clear := by
    rintro f m _ - rfl
    rcases TableMemory.clear m f with halt | _ | m'
    · exact .stopped halt
    · exact .refused
    · exact .done rfl
  invalidate := by
    rintro v m _ rfl
    rfl
  allocateFrame := by
    rintro m _ rfl
    cases (TableMemory.allocateFrame : EStateM Halt σ (Option Frame)) m with
    | ok f m' => exact .done f rfl
    | error halt m' => exact .stopped halt rfl

/-- A call that stays inside the set has the same outcome over memories that agree there. -/
theorem AgreesWithin.call (h : AgreesWithin within R) (call : Call) (m : σ) (t : τ) (hR : R m t)
    (hstay : ∀ c, call.onTables (⟨m⟩ : Confined σ within) ≠ .error .fault c) :
    (∃ x m' t', call.onTables m = .ok x m' ∧ call.onTables t = .ok x t' ∧ R m' t') ∨
      ∃ halt m' t', halt ≠ .fault ∧ call.onTables m = .error halt m' ∧
        call.onTables t = .error halt t' ∧ R m' t' := by
  have hself := agreesWithin_refl.simulates.call call (⟨m⟩ : Confined σ within) m rfl
  have hother := h.simulates.call call (⟨m⟩ : Confined σ within) t hR
  generalize call.onTables (⟨m⟩ : Confined σ within) = r at hself hother hstay
  generalize call.onTables m = r₁ at hself ⊢
  generalize call.onTables t = r₂ at hother ⊢
  cases hself with
  | fault => exact absurd rfl (hstay _)
  | done x hsame =>
    obtain rfl := hsame
    cases hother with
    | done _ related => exact .inl ⟨x, _, _, rfl, rfl, related⟩
  | stopped halt hsame =>
    obtain rfl := hsame
    cases hother with
    | fault => exact absurd rfl (hstay _)
    | stopped _ related =>
      refine .inr ⟨halt, _, _, ?_, rfl, rfl, related⟩
      rintro rfl
      exact hstay _ rfl

end Confined

end Paging

end KernelCore
