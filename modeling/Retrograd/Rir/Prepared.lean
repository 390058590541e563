import Retrograd.Rir.Prepare

/-!
# What a prepared plan is

The facts a plan has once it is built and prepared: what each pass does with a scratch, and which
buffer each binding has. Two bindings with one buffer have one **source**.
-/

namespace Retrograd.Rir.Dispatch

open Logic List

variable {plan : DispatchPlan} {manifests : List Manifest} {args : List PlanArg} {axes : Shape}
  {recorded : List Recorded}

/-- Binding `k` of pass `i`, in the plan and in the manifest of the pass. -/
def Binds (plan : DispatchPlan) (manifests : List Manifest) (i k : ℕ) (d : Binding)
    (m : Rir.Binding) : Prop :=
  ∃ pass manifest, plan.passes[i]? = some pass ∧ manifests[i]? = some manifest ∧
    pass.bindings[k]? = some d ∧ manifest.bindings[k]? = some m

/-- Pass `i` starts behind a barrier. -/
def BarrierAt (plan : DispatchPlan) (i : ℕ) : Prop :=
  ∃ pass, plan.passes[i]? = some pass ∧ pass.barrier = .full

/-! ### Lists side by side -/

variable {i : ℕ}

theorem mem_zipIdx {α : Type} {l : List α} {a : α} (h : l[i]? = some a) : (a, i) ∈ l.zipIdx :=
  mk_mem_zipIdx_iff_getElem?.mpr h

theorem mem_zip {α β : Type} {l : List α} {l' : List β} {a : α} {b : β} (ha : l[i]? = some a)
    (hb : l'[i]? = some b) : (a, b) ∈ l.zip l' :=
  mem_of_getElem? (getElem?_zip_eq_some.mpr ⟨ha, hb⟩)

theorem forall₂_getElem?_left {α β : Type} {R : α → β → Prop} {l : List α} {l' : List β}
    (h : Forall₂ R l l') {a : α} (ha : l[i]? = some a) : ∃ b, l'[i]? = some b ∧ R a b :=
  forall₂_getElem? h.flip ha

/-! ### What is checked -/

/-- What the structural check and the manifests say of a scratch binding. -/
structure ScratchUse (plan : DispatchPlan) (i : ℕ) (m : Rir.Binding) (s : Scratch) : Prop where
  produced : s.producedBy ≤ i
  behind : s.producedBy < i → BarrierAt plan i
  write : m.access = .write → i = s.producedBy
  read : m.access = .read → i ≠ s.producedBy ∧ i ≤ s.lastReadBy

theorem of_checkCount {expected got : ℕ} (h : checkCount expected got = .ok ⟨⟩) :
    got = expected := by
  rw [checkCount] at h
  split_ifs at h with hne
  exact not_not.mp hne

/-- What a build has checked of one pass. -/
structure BuiltPass (plan : DispatchPlan) (i : ℕ) (pass : Pass) (manifest : Manifest) : Prop where
  length : pass.bindings.length = manifest.bindings.length
  use : ∀ d m name, (d, m) ∈ pass.bindings.zip manifest.bindings → d.source = .scratch name →
    ∃ s, plan.findScratch name = some s ∧ ScratchUse plan i m s

/-- What the structural check has seen of the scratches. -/
theorem of_checkScratch {scratch seen seen' : List Scratch}
    (h : scratch.foldlM (checkScratch plan) seen = .ok seen') :
    (scratch.map Scratch.name).Nodup ∧
      (∀ s ∈ scratch, s.name ∉ seen.map Scratch.name ∧ s.producedBy ≤ s.lastReadBy ∧
        s.lastReadBy < plan.passes.length) := by
  induction scratch generalizing seen with
  | nil => exact ⟨nodup_nil, fun s hs => absurd hs not_mem_nil⟩
  | cons s scratch ih =>
    obtain ⟨next, hnext, hrest⟩ := ok_of_bind h
    rw [checkScratch] at hnext
    split_ifs at hnext with hdup hrange hlife
    · obtain rfl := Except.ok.inj hnext
      obtain ⟨hnodup, hall⟩ := ih hrest
      have hnew : s.name ∉ seen.map Scratch.name := by
        intro hmem
        obtain ⟨other, hother, heq⟩ := mem_map.mp hmem
        exact hdup (any_eq_true.mpr ⟨other, hother, beq_iff_eq.mpr heq⟩)
      refine ⟨nodup_cons.mpr ⟨fun hmem => ?_, hnodup⟩,
        forall_mem_cons.mpr ⟨⟨hnew, by omega, by omega⟩, fun other hother => ?_⟩⟩
      · obtain ⟨other, hother, heq⟩ := mem_map.mp hmem
        refine (hall other hother).1 ?_
        rw [map_append, heq]
        exact mem_append_right _ (mem_singleton_self _)
      · refine ⟨fun hmem => (hall other hother).1 ?_, (hall other hother).2⟩
        rw [map_append]
        exact mem_append_left _ hmem

/-- What a built plan is. -/
structure Built (plan : DispatchPlan) (manifests : List Manifest) : Prop where
  distinct : (plan.scratch.map Scratch.name).Nodup
  lifetime : ∀ s ∈ plan.scratch, s.producedBy ≤ s.lastReadBy ∧ s.lastReadBy < plan.passes.length
  nonempty : plan.passes ≠ []
  length : manifests.length = plan.passes.length
  pass : ∀ i pass manifest, plan.passes[i]? = some pass → manifests[i]? = some manifest →
    BuiltPass plan i pass manifest

variable {pass : Pass} {m : Rir.Binding}

theorem scratchUse_of_check {s : Scratch} (hpass : plan.passes[i]? = some pass)
    (hsource : checkUse plan i pass s = .ok ⟨⟩) (haccess : checkScratchAccess plan i s m = .ok ⟨⟩) :
    ScratchUse plan i m s := by
  rw [checkUse] at hsource
  split_ifs at hsource with hbarrier hearly
  rw [checkScratchAccess] at haccess
  split_ifs at haccess with hdtype hwrite hread hlate
  all_goals try cases haccess
  refine ⟨Nat.not_lt.mp hearly, fun hafter => ⟨pass, hpass, ?_⟩,
    fun haccess => by_contra fun hne => hwrite ⟨haccess, hne⟩,
    fun haccess => ⟨fun heq => hread ⟨haccess, heq⟩,
      Nat.not_lt.mp fun hlt => hlate ⟨haccess, hlt⟩⟩⟩
  cases hkind : pass.barrier with
  | none => exact absurd ⟨hafter, hkind⟩ hbarrier
  | full => rfl

theorem use_of_check {d : Binding} {name : String} (hpass : plan.passes[i]? = some pass)
    (hname : d.source = .scratch name) (hsource : checkSource plan i pass d = .ok ⟨⟩)
    (hdeclared : checkDeclared plan i (d, m) = .ok ⟨⟩) :
    ∃ s, plan.findScratch name = some s ∧ ScratchUse plan i m s := by
  simp only [checkSource, hname] at hsource
  simp only [checkDeclared, hname] at hdeclared
  split_ifs at hdeclared
  · cases hdeclared
  · cases hfind : plan.findScratch name with
    | none =>
      rw [hfind] at hsource
      cases hsource
    | some s =>
      rw [hfind] at hsource hdeclared
      exact ⟨s, rfl, scratchUse_of_check hpass hsource hdeclared⟩

theorem built_of_build (h : build plan manifests = .ok ⟨⟩) : Built plan manifests := by
  obtain ⟨⟨⟩, hcheck, h⟩ := ok_of_bind h
  obtain ⟨⟨⟩, hcount, hpasses⟩ := ok_of_bind h
  obtain ⟨⟨⟩, hschema, hcheck⟩ := ok_of_bind (ok_of_mapError hcheck)
  obtain ⟨seen, hscratch, hsources⟩ := ok_of_bind hcheck
  obtain ⟨hdistinct, hlifetime⟩ := of_checkScratch hscratch
  refine ⟨hdistinct, fun s hs => (hlifetime s hs).2, ?_, of_checkCount hcount,
    fun i pass manifest hpass hmanifest => ?_⟩
  · intro hempty
    rw [checkSchema] at hschema
    split_ifs at hschema
  · have hbuilt := forM_ok_iff.mp hpasses ((pass, manifest), i)
      (mem_zipIdx (getElem?_zip_eq_some.mpr ⟨hpass, hmanifest⟩))
    obtain ⟨⟨⟩, -, hbuilt⟩ := ok_of_bind hbuilt
    obtain ⟨⟨⟩, -, hbuilt⟩ := ok_of_bind hbuilt
    obtain ⟨⟨⟩, hlength, hbuilt⟩ := ok_of_bind hbuilt
    obtain ⟨⟨⟩, hdeclared, -⟩ := ok_of_bind hbuilt
    have hsource := forM_ok_iff.mp hsources (pass, i) (mem_zipIdx hpass)
    refine ⟨of_checkCount hlength, fun d m name hdm hname => ?_⟩
    exact use_of_check hpass hname (forM_ok_iff.mp hsource d (of_mem_zip hdm).1)
      (forM_ok_iff.mp hdeclared _ hdm)

/-! ### Buffers -/

/-- Buffer `index` is the one of a source. -/
def BufferOf (plan : DispatchPlan) (args : List PlanArg) : Source → ℕ → Prop
  | .arg name, index => ∃ a, args[index]? = some a ∧ a.name = name
  | .scratch name, index =>
    ∃ j s, index = args.length + j ∧ plan.scratch[j]? = some s ∧ s.name = name

variable {index : ℕ}

/-- A buffer belongs to one source. -/
theorem source_unique {source source' : Source} (h : BufferOf plan args source index)
    (h' : BufferOf plan args source' index) : source = source' := by
  rcases source with name | name <;> rcases source' with name' | name'
  · obtain ⟨a, ha, rfl⟩ := h
    obtain ⟨a', ha', rfl⟩ := h'
    rw [Option.some.inj (ha.symm.trans ha')]
  · obtain ⟨a, ha, rfl⟩ := h
    obtain ⟨j, s, rfl, -⟩ := h'
    rw [getElem?_eq_none (Nat.le_add_right ..)] at ha
    cases ha
  · obtain ⟨j, s, rfl, -⟩ := h
    obtain ⟨a, ha, rfl⟩ := h'
    rw [getElem?_eq_none (Nat.le_add_right ..)] at ha
    cases ha
  · obtain ⟨j, s, rfl, hs, rfl⟩ := h
    obtain ⟨j', s', heq, hs', rfl⟩ := h'
    rw [Nat.add_left_cancel heq] at hs
    rw [Option.some.inj (hs.symm.trans hs')]

/-- An argument is read when it is an input and written when it is an output. -/
def Directed (args : List PlanArg) (m : Rir.Binding) (index : ℕ) : Prop :=
  ∀ a, args[index]? = some a → (m.access = .write ↔ ∃ len, a.arg = .output len)

theorem getElem?_of_idxOf? {names : List String} {name : String}
    (h : names.idxOf? name = some index) : names[index]? = some name := by
  obtain ⟨hlt, hname, -⟩ := idxOf?_eq_some_iff.mp h
  rw [getElem?_eq_getElem hlt, hname]

theorem bufferOf_spec {d : Binding} (h : bufferOf plan args d.source = .ok index)
    (haccess : checkAccess pass args d m index = .ok ⟨⟩) :
    BufferOf plan args d.source index ∧ Directed args m index := by
  cases hsource : d.source with
  | scratch name =>
    rw [hsource, bufferOf] at h
    cases hindex : (plan.scratch.map Scratch.name).idxOf? name with
    | none =>
      rw [hindex] at h
      cases h
    | some j =>
      rw [hindex] at h
      obtain rfl := (Except.ok.inj h).symm
      have hname := getElem?_of_idxOf? hindex
      rw [getElem?_map] at hname
      obtain ⟨s, hs, hsname⟩ := Option.map_eq_some_iff.mp hname
      refine ⟨⟨j, s, rfl, hs, hsname⟩, fun a ha => ?_⟩
      rw [getElem?_eq_none (Nat.le_add_right ..)] at ha
      cases ha
  | arg name =>
    rw [hsource, bufferOf] at h
    simp only [checkAccess, hsource] at haccess
    cases hindex : (args.map PlanArg.name ++ plan.scratch.map Scratch.name).idxOf? name with
    | none =>
      rw [hindex] at h
      cases h
    | some j =>
      rw [hindex] at h
      obtain rfl := Except.ok.inj h
      cases ha : args[j]? with
      | none =>
        rw [ha] at haccess
        cases haccess
      | some a =>
        rw [ha] at haccess
        have hlt : j < args.length := (List.getElem?_eq_some_iff.mp ha).1
        have hname := getElem?_of_idxOf? hindex
        rw [getElem?_append_left (by rwa [length_map]), getElem?_map, ha] at hname
        refine ⟨⟨a, ha, Option.some.inj hname⟩, fun a' ha' => ?_⟩
        obtain rfl := Option.some.inj (ha.symm.trans ha')
        cases hm : m.access <;> cases harg : a.arg <;> simp only [hm, harg] at haccess
        · exact ⟨fun h => (by cases h), fun ⟨_, h⟩ => (by cases h)⟩
        · cases haccess
        · cases haccess
        · exact ⟨fun _ => ⟨_, rfl⟩, fun _ => rfl⟩

theorem of_addBinding {bindings : List (Binding × Rir.Binding)} {state state' : Values × List ℕ}
    (h : bindings.foldlM (addBinding plan axes args pass) state = .ok state') :
    ∃ indices, state'.2 = state.2 ++ indices ∧
      Forall₂ (fun bound index => BufferOf plan args bound.1.source index ∧
        Directed args bound.2 index) bindings indices := by
  induction bindings generalizing state with
  | nil =>
    obtain rfl := Except.ok.inj h
    exact ⟨[], (append_nil _).symm, .nil⟩
  | cons bound bindings ih =>
    obtain ⟨next, hnext, hrest⟩ := ok_of_bind h
    obtain ⟨index, hindex, hnext⟩ := ok_of_bind hnext
    obtain ⟨⟨⟩, haccess, hnext⟩ := ok_of_bind hnext
    obtain ⟨values, -, hnext⟩ := ok_of_bind hnext
    obtain rfl := Except.ok.inj hnext
    obtain ⟨indices, heq, hall⟩ := ih hrest
    refine ⟨index :: indices, ?_, .cons (bufferOf_spec hindex haccess) hall⟩
    rw [heq, append_assoc]
    rfl

/-- What is recorded of a pass. -/
structure PreparedPass (plan : DispatchPlan) (args : List PlanArg) (pass : Pass)
    (manifest : Manifest) (r : Recorded) : Prop where
  barrier : r.barrier = pass.barrier
  buffers : List.Forall₂ (fun bound index => BufferOf plan args bound.1.source index ∧
    Directed args bound.2 index) (pass.bindings.zip manifest.bindings) r.buffers

theorem prepared_of_preparePass {sizes : List ℕ} {manifest : Manifest} {r : Recorded}
    (h : preparePass plan axes args sizes (pass, manifest) = .ok r) :
    PreparedPass plan args pass manifest r := by
  obtain ⟨values, -, h⟩ := ok_of_bind h
  obtain ⟨state, hstate, h⟩ := ok_of_bind h
  obtain ⟨push, -, h⟩ := ok_of_bind h
  obtain ⟨grid, -, h⟩ := ok_of_bind h
  obtain ⟨⟨⟩, -, h⟩ := ok_of_bind h
  obtain rfl := Except.ok.inj h
  obtain ⟨indices, heq, hall⟩ := of_addBinding hstate
  refine ⟨rfl, ?_⟩
  rwa [heq, nil_append]

theorem of_addArgName {names names' : List String}
    (h : args.foldlM (addArgName plan) names = .ok names') :
    (args.map PlanArg.name).Nodup ∧ ∀ a ∈ args, a.name ∉ names := by
  induction args generalizing names with
  | nil => exact ⟨nodup_nil, fun a ha => absurd ha not_mem_nil⟩
  | cons a args ih =>
    obtain ⟨next, hnext, hrest⟩ := ok_of_bind h
    rw [addArgName] at hnext
    split_ifs at hnext with hdup
    · cases hnext
    · obtain rfl := Except.ok.inj hnext
      obtain ⟨hnodup, hall⟩ := ih hrest
      refine ⟨nodup_cons.mpr ⟨fun hmem => ?_, hnodup⟩,
        forall_mem_cons.mpr ⟨fun hmem => hdup (.inl hmem), fun other hother hmem =>
          hall other hother (mem_append_left _ hmem)⟩⟩
      obtain ⟨other, hother, heq⟩ := mem_map.mp hmem
      exact hall other hother (heq ▸ mem_append_right _ (mem_singleton_self _))

/-- What a prepared plan is. -/
structure Prepared (plan : DispatchPlan) (manifests : List Manifest) (args : List PlanArg)
    (axes : Shape) (recorded : List Recorded) : Prop where
  names : (args.map PlanArg.name).Nodup
  sizes : ∀ s ∈ plan.scratch, ∃ size, scratchSize plan axes s = .ok size
  passes : List.Forall₂ (fun built r => PreparedPass plan args built.1 built.2 r)
    (plan.passes.zip manifests) recorded

theorem prepared_of_prepare (h : prepare plan manifests args axes = .ok recorded) :
    Prepared plan manifests args axes recorded := by
  obtain ⟨names, hnames, h⟩ := ok_of_bind h
  obtain ⟨sizes, hsizes, h⟩ := ok_of_bind h
  exact ⟨(of_addArgName hnames).1, fun s hs => ok_of_mem_mapM hsizes hs,
    (forall₂_of_mapM h).imp fun _ _ hr => prepared_of_preparePass hr⟩

end Retrograd.Rir.Dispatch
