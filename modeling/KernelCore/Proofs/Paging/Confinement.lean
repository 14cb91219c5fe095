import KernelCore.Proofs.Paging.Enclosures
import KernelCore.Proofs.Paging.Simulation

/-!
# Walks that are carried out inside a set of frames

An arena whose tables and free frames lie in a set of frames answers a walk as it does if no frame
outside the set may be touched. Every memory that agrees with the arena inside the set therefore
answers the walk like the arena, and does not fault.
-/

namespace KernelCore

namespace Paging

variable {σ τ α β : Type} {R : σ → τ → Prop} {within : Frame → Bool} {v : VirtAddr}
  {level : LinkLevel} {f : Frame} {way : List TableIndex}

/-! ## The other way round -/

theorem Writes.symm {x : Except Halt (Option σ)} {y : Except Halt (Option τ)} (h : Writes R x y)
    (hx : x ≠ .error .fault) : Writes (fun t s => R s t) y x := by
  cases h with
  | done related => exact .done related
  | refused => exact .refused
  | stopped halt => exact .stopped halt
  | fault => exact absurd rfl hx

theorem Results.symm {x : EStateM.Result Halt σ α} {y : EStateM.Result Halt τ α}
    (h : Results R x y) (hx : ∀ s, x ≠ .error .fault s) : Results (fun t s => R s t) y x := by
  cases h with
  | done a related => exact .done a related
  | stopped halt related => exact .stopped halt related
  | fault s => exact absurd rfl (hx s)

/-- Where the first memory does not fault, the second one leads as well. -/
theorem Confined.AgreesWithin.symm [TableMemory σ] [TableMemory τ] (h : AgreesWithin within R)
    (hwrite : ∀ f i e s t, within f = true → R s t → TableMemory.write s f i e ≠ .error .fault)
    (hclear : ∀ f s t, within f = true → R s t → TableMemory.clear s f ≠ .error .fault)
    (hallocate : ∀ s t s', R s t →
      (TableMemory.allocateFrame : EStateM Halt σ (Option Frame)) s ≠ .error .fault s') :
    AgreesWithin within fun t s => R s t where
  root t s hR := (h.root s t hR).symm
  holds f t s hf hR := (h.holds f s t hf hR).symm
  read f i t s hf hR := (h.read f i s t hf hR).symm
  write f i e t s hf hR := (h.write f i e s t hf hR).symm (hwrite f i e s t hf hR)
  clear f t s hf hR := (h.clear f s t hf hR).symm (hclear f s t hf hR)
  invalidate v t s hR := h.invalidate v s t hR
  allocateFrame t s hR := (h.allocateFrame s t hR).symm fun s' => hallocate s t s' hR

/-! ## Walks of a confined memory -/

namespace Confined

/-- What comes of an operation, with its memory confined. -/
def confine (r : EStateM.Result Halt σ α) : EStateM.Result Halt (Confined σ within) α :=
  match r with
  | .ok x s => .ok x ⟨s⟩
  | .error halt s => .error halt ⟨s⟩

theorem bind_eq_confine {x : Walk (Confined σ within) α} {y : Walk σ α}
    {p : α → Walk (Confined σ within) β} {q : α → Walk σ β} {s : σ} (hx : x ⟨s⟩ = confine (y s))
    (hp : ∀ r s', y s = .ok (.ok r) s' → p r ⟨s'⟩ = confine (q r s')) :
    (x >>= p) ⟨s⟩ = confine ((y >>= q) s) := by
  simp only [bind, ExceptT.bind, ExceptT.mk, EStateM.bind, hx]
  cases hy : y s with
  | error halt s' => rfl
  | ok r s' =>
    cases r with
    | error e => rfl
    | ok r => exact hp r s' hy

theorem look_eq_confine {p : Confined σ within → Lookup α} {q : σ → Lookup α} {s : σ}
    (h : p ⟨s⟩ = q s) : look p ⟨s⟩ = confine (look q s) := by
  unfold look
  rw [h]
  cases q s with
  | error halt => rfl
  | ok r => rfl

theorem change_eq_confine {p : Confined σ within → Except Halt (Option (Confined σ within))}
    {q : σ → Except Halt (Option σ)} {s : σ} (h : p ⟨s⟩ = (q s).map (·.map .mk)) :
    change p level ⟨s⟩ = confine (change q level s) := by
  unfold change
  rw [h]
  rcases q s with halt | _ | s'
  · rfl
  · rfl
  · rfl

theorem allocate_eq_confine [TableMemory σ] (s : σ) :
    (liftM (TableMemory.allocateFrame : EStateM Halt (Confined σ within) (Option Frame)) :
        Walk (Confined σ within) (Option Frame)) ⟨s⟩ =
      confine ((liftM (TableMemory.allocateFrame : EStateM Halt σ (Option Frame)) :
        Walk σ (Option Frame)) s) := by
  simp only [liftM, monadLift, MonadLift.monadLift, ExceptT.lift, ExceptT.mk, Functor.map,
    EStateM.map, TableMemory.allocateFrame]
  cases (TableMemory.allocateFrame : EStateM Halt σ (Option Frame)) s with
  | ok f s' => rfl
  | error halt s' => rfl

theorem lookup_bind_congr {l : Lookup α} {p q : α → Lookup β}
    (h : ∀ y, l = .ok (.ok y) → p y = q y) : (l >>= p) = (l >>= q) := by
  rcases l with halt | e | y
  · rfl
  · rfl
  · exact h y rfl

theorem look_eq_ok {q : σ → Lookup α} {r : Except PagingError α} {s s' : σ}
    (h : look q s = .ok r s') : q s = .ok r ∧ s' = s := by
  unfold look at h
  split at h
  · contradiction
  · rename_i r' hr
    obtain ⟨rfl, rfl⟩ := EStateM.Result.ok.inj h
    exact ⟨hr, rfl⟩

section Primitives

variable [TableMemory σ] {i : TableIndex} {s : σ}

theorem entry_eq (hf : within f = true) :
    entry (⟨s⟩ : Confined σ within) f i level = entry s f i level := by
  unfold entry
  rw [show TableMemory.read (⟨s⟩ : Confined σ within) f i = TableMemory.read s f i from if_pos hf]

theorem follow_eq (hf : within f = true) :
    follow (⟨s⟩ : Confined σ within) v f level = follow s v f level := by
  unfold follow
  rw [entry_eq hf]

theorem write_eq {e : Entry} (hf : within f = true) :
    TableMemory.write (⟨s⟩ : Confined σ within) f i e =
      (TableMemory.write s f i e).map (·.map .mk) :=
  if_pos hf

theorem clear_eq (hf : within f = true) :
    TableMemory.clear (⟨s⟩ : Confined σ within) f = (TableMemory.clear s f).map (·.map .mk) :=
  if_pos hf

end Primitives

end Confined

/-! ## Arenas whose tables lie in the set -/

section Arenas

open Confined Arena

variable {a b : Arena} {g : Frame}

theorem rootTable_eq_confined (h : Enclosed within a) :
    rootTable (⟨a⟩ : Confined Arena within) = rootTable a := by
  obtain ⟨f, hf⟩ := h.tree.rooted
  have hlength : ([] : List TableIndex).length ≤ 3 := by simp
  have hin := h.table hlength hf
  have hroot : TableMemory.root (⟨a⟩ : Confined Arena within) = some f := hf
  have hroot' : TableMemory.root a = some f := hf
  have hholds : TableMemory.holds (⟨a⟩ : Confined Arena within) f = TableMemory.holds a f :=
    if_pos hin
  simp only [rootTable, hroot, hroot', hholds]

theorem tableAt?_of_rootTable (h : rootTable a = .ok (.ok f)) : a.tableAt? [] = some f := by
  rcases rootTable_cases a with ⟨g, hroot, hok⟩ | ⟨herror, -⟩
  · obtain rfl := Except.ok.inj (Except.ok.inj (hok.symm.trans h))
    exact hroot
  · cases Except.ok.inj (herror.symm.trans h)

theorem tableAt?_of_follow (hf : a.tableAt? way = some f) (h : follow a v f level = .ok (.ok g)) :
    a.tableAt? (level.index v :: way) = some g := by
  rw [tableAt?_cons hf]
  cases hchild : a.child? f (level.index v) with
  | none => cases Except.ok.inj ((follow_of_none hchild).symm.trans h)
  | some g' =>
    rw [follow_of_some hchild] at h
    exact congrArg some (Except.ok.inj (Except.ok.inj h))

theorem leaf_eq_confined (h : Enclosed within a) (v : VirtAddr) :
    leaf (⟨a⟩ : Confined Arena within) v = leaf a v := by
  have htables : leafTable (⟨a⟩ : Confined Arena within) v = leafTable a v := by
    rw [leafTable, leafTable, rootTable_eq_confined h]
    refine lookup_bind_congr fun pml4 hroot => ?_
    have h₀ := tableAt?_of_rootTable hroot
    rw [follow_eq (h.table (by simp) h₀)]
    refine lookup_bind_congr fun pdpt hpdpt => ?_
    have h₁ := tableAt?_of_follow h₀ hpdpt
    rw [follow_eq (h.table (by simp) h₁)]
    refine lookup_bind_congr fun pd hpd => ?_
    exact follow_eq (h.table (by simp) (tableAt?_of_follow h₁ hpd))
  rw [leaf, leaf, htables]
  refine lookup_bind_congr fun pt hpt => entry_eq ?_
  cases hlast : a.tableAt? v.way with
  | none =>
    obtain ⟨level, -, herror⟩ := leafTable_of_none hlast
    cases Except.ok.inj (herror.symm.trans hpt)
  | some pt' =>
    rw [leafTable_of_some hlast] at hpt
    obtain rfl := Except.ok.inj (Except.ok.inj hpt)
    exact h.table v.length_way.le hlast

theorem followOrMake_eq_confined (h : Enclosed within a) (hf : within f = true) :
    followOrMake v f level (⟨a⟩ : Confined Arena within) = confine (followOrMake v f level a) := by
  refine bind_eq_confine (look_eq_confine (entry_eq hf)) fun e b he => ?_
  obtain ⟨-, rfl⟩ := look_eq_ok he
  split
  · exact look_eq_confine rfl
  · refine bind_eq_confine (allocate_eq_confine b) fun r c hr => ?_
    cases r with
    | none => rfl
    | some g =>
      have hg : within g = true := by
        rcases FrameAllocator.allocateFrame_handed h.sound with ⟨hnone, -⟩ | ⟨g', d, hsome, hhanded⟩
        · rw [allocateFrame_eq_ok hnone] at hr
          simp at hr
        · rw [allocateFrame_eq_ok hsome] at hr
          obtain ⟨hg, -⟩ := EStateM.Result.ok.inj hr
          obtain rfl := Option.some.inj (Except.ok.inj hg)
          exact h.free hhanded.wasFree
      refine bind_eq_confine (change_eq_confine (clear_eq hg)) fun _ _ _ => ?_
      exact bind_eq_confine (change_eq_confine (write_eq hf)) fun _ _ _ => rfl

/-- A table that is followed, or made, is in the set again. -/
theorem enclosed_of_followOrMake (h : Enclosed within a) (hf : a.tableAt? way = some f)
    (hway : way.length < 3) (hrun : followOrMake v f level a = .ok (.ok g) b) :
    Enclosed within b ∧ b.tableAt? (level.index v :: way) = some g := by
  obtain ⟨r, c, hrun', hfollowed⟩ := exists_followed h.sound v f level
  obtain ⟨rfl, rfl⟩ := EStateM.Result.ok.inj (hrun'.symm.trans hrun)
  cases hfollowed with
  | there child => exact ⟨h, (tableAt?_cons hf _).trans child⟩
  | made _ vacant linked _ =>
    have hgap := h.tree.gap hway hf ((tableAt?_cons hf _).trans (child?_eq_none vacant))
    exact ⟨h.linked linked hgap, linked.tableAt?_new hgap⟩

theorem makeTables_eq_confined (h : Enclosed within a) (levels : List LinkLevel)
    (hf : a.tableAt? way = some f) (hlength : levels.length + way.length ≤ 3) :
    makeTables v levels f (⟨a⟩ : Confined Arena within) = confine (makeTables v levels f a) := by
  induction levels generalizing a f way with
  | nil => rfl
  | cons level rest ih =>
    rw [List.length_cons] at hlength
    have hin := h.table (by omega) hf
    refine bind_eq_confine (followOrMake_eq_confined h hin) fun g b hrun => ?_
    obtain ⟨hb, hg⟩ := enclosed_of_followOrMake h hf (by omega) hrun
    exact ih hb hg (by rw [List.length_cons]; omega)

theorem enclosed_of_makeTables (h : Enclosed within a) (levels : List LinkLevel)
    (hf : a.tableAt? way = some f) (hlength : levels.length + way.length ≤ 3)
    (hrun : makeTables v levels f a = .ok (.ok g) b) :
    Enclosed within b ∧ b.tableAt? ((levels.map (·.index v)).reverse ++ way) = some g := by
  induction levels generalizing a f way with
  | nil =>
    obtain ⟨hg, rfl⟩ := EStateM.Result.ok.inj hrun
    obtain rfl := Except.ok.inj hg
    exact ⟨h, hf⟩
  | cons level rest ih =>
    rw [List.length_cons] at hlength
    obtain ⟨r, c, hfirst, -⟩ := exists_followed h.sound v f level
    cases r with
    | error e =>
      have hstop : makeTables v (level :: rest) f a = .ok (.error e) c := bind_error hfirst
      simp [hstop] at hrun
    | ok g' =>
      obtain ⟨hc, hg'⟩ := enclosed_of_followOrMake h hf (by omega) hfirst
      have hnext : makeTables v (level :: rest) f a = makeTables v rest g' c := bind_ok hfirst
      have hrest := ih hc hg' (by rw [List.length_cons]; omega) (hnext.symm.trans hrun)
      simpa using hrest

theorem map_eq_confined (h : Enclosed within a) (v : VirtAddr) (p : PhysAddr)
    (attributes : UInt64) :
    map v p attributes (⟨a⟩ : Confined Arena within) = confine (map v p attributes a) := by
  by_cases hnull : (v.isNull || p.val == 0) = true
  · rw [map, map, if_pos hnull, if_pos hnull]
    rfl
  · have hv : v.isNull = false := by simp at hnull; exact hnull.1
    have hp : p.val ≠ 0 := by simp at hnull; exact hnull.2
    rw [map_eq hv hp, map_eq hv hp]
    refine bind_eq_confine (look_eq_confine (rootTable_eq_confined h)) fun pml4 b hroot => ?_
    obtain ⟨hlookup, rfl⟩ := look_eq_ok hroot
    have h₀ : b.tableAt? [] = some pml4 := tableAt?_of_rootTable hlookup
    refine bind_eq_confine (makeTables_eq_confined h _ h₀ (by simp)) fun pt c hmade => ?_
    obtain ⟨hc, hpt⟩ := enclosed_of_makeTables h _ h₀ (by simp) hmade
    have hin := hc.table v.length_way.le hpt
    refine bind_eq_confine (look_eq_confine (entry_eq hin)) fun e d he => ?_
    obtain ⟨-, rfl⟩ := look_eq_ok he
    split
    · rfl
    · exact bind_eq_confine (change_eq_confine (write_eq hin)) fun _ _ _ => rfl

/-! ## Memories that agree with an arena -/

variable [TableMemory τ] {R : Arena → τ → Prop} {t : τ}

/-- A memory that agrees with an arena on the set maps a page as the arena does. -/
theorem Confined.AgreesWithin.map_eq_ok (hagree : AgreesWithin within R) (h : Enclosed within a)
    (hR : R a t) {p : PhysAddr} {attributes : UInt64} {r : Except PagingError Unit}
    (hrun : map v p attributes a = .ok r b) :
    ∃ u, map v p attributes t = .ok r u ∧ R b u := by
  have hboth := hagree.simulates.map v p attributes ⟨a⟩ t hR
  rw [map_eq_confined h, hrun] at hboth
  generalize map v p attributes t = result at hboth ⊢
  cases hboth with
  | done _ related => exact ⟨_, rfl, related⟩

theorem Confined.AgreesWithin.leaf_eq (hagree : AgreesWithin within R) (h : Enclosed within a)
    (hR : R a t) (v : VirtAddr) : leaf t v = leaf a v := by
  have hboth := hagree.simulates.leaf v ⟨a⟩ t hR
  rw [leaf_eq_confined h] at hboth
  have hgoes : leaf a v ≠ .error .fault := by
    rcases leaf_cases a v with ⟨level, -, hleaf⟩ | ⟨pt, -, -, hleaf⟩
    · rw [hleaf]
      exact nofun
    · rw [hleaf]
      exact nofun
  generalize leaf a v = x at hboth hgoes ⊢
  generalize leaf t v = y at hboth ⊢
  cases hboth with
  | same => rfl
  | fault => exact absurd rfl hgoes

end Arenas

end Paging

end KernelCore
