import Retrograd.Logic.Except
import Retrograd.Trainable.Dedup

/-!
# What a resolution takes

A full run takes every tensor that is neither frozen nor of an unlisted family; a partial one takes
what its **selector names**. Either way the tensors taken are known before the candidates are sorted,
and a resolution that ends well has screened every one of them.
-/

namespace Retrograd.Trainable

open Logic List

/-! ### Wildcards -/

/-- A pattern matches a text: a star stands for any part of it. -/
inductive Wildcard : List Char → List Char → Prop
  | done : Wildcard [] []
  | star {pattern value : List Char} (before after : List Char) (parts : before ++ after = value)
      (rest : Wildcard pattern after) : Wildcard ('*' :: pattern) value
  | char {pattern value : List Char} {c : Char} (plain : c ≠ '*') (rest : Wildcard pattern value) :
      Wildcard (c :: pattern) (c :: value)

theorem wildcardMatch_iff {pattern value : List Char} :
    wildcardMatch pattern value = true ↔ Wildcard pattern value := by
  induction pattern generalizing value with
  | nil =>
    rw [wildcardMatch, List.isEmpty_iff]
    constructor
    · rintro rfl
      exact .done
    · rintro ⟨⟩
      rfl
  | cons head pattern ih =>
    by_cases hstar : head = '*'
    · subst hstar
      rw [wildcardMatch, any_eq_true]
      constructor
      · rintro ⟨after, hafter, hmatch⟩
        obtain ⟨before, hparts⟩ := (mem_tails _ _).mp hafter
        exact .star before after hparts (ih.mp hmatch)
      · intro h
        rcases h with _ | ⟨before, after, hparts, hrest⟩ | ⟨hplain, -⟩
        · exact ⟨after, (mem_tails _ _).mpr ⟨before, hparts⟩, ih.mpr hrest⟩
        · exact absurd rfl hplain
    · rcases value with _ | ⟨first, value⟩
      · rw [wildcardMatch]
        · refine iff_of_false Bool.false_ne_true fun h => ?_
          cases h
          exact hstar rfl
        · exact hstar
      · rw [wildcardMatch, Bool.and_eq_true, beq_iff_eq, ih]
        · constructor
          · rintro ⟨rfl, hrest⟩
            exact .char hstar hrest
          · intro h
            rcases h with _ | _ | ⟨-, hrest⟩
            · exact absurd rfl hstar
            · exact ⟨rfl, hrest⟩
        · exact hstar

/-! ### What a selector names -/

/-- A tensor in one of the selected blocks. -/
def InBlocks (layers : List ℕ) (tensor : TensorDesc) : Prop :=
  ∃ layer ∈ layers, tensor.layer = some layer

/-- What one module names: a pattern, whole names in the blocks and outside every block; a stem or an
alias, the weights in the blocks that are no norms. -/
def ModuleNames (layers : List ℕ) (module : String) (tensor : TensorDesc) : Prop :=
  if isPattern (trim module) then
    (tensor.layer = none ∨ InBlocks layers tensor) ∧
      Wildcard (trim module).toList tensor.name.toList
  else
    InBlocks layers tensor ∧ tensor.isBias = false ∧ tensor.isNorm = false ∧
      tensorFamily tensor.name ∈ (expandModuleAlias (trim module)).getD [trim module]

/-- What a selector names. -/
def Names (selector : TrainableSelector) (layers : List ℕ) (tensor : TensorDesc) : Prop :=
  (∃ module ∈ selector.modules, ModuleNames layers module tensor) ∨
  (selector.norms = true ∧ tensor.isNorm = true ∧ tensor.isBias = false ∧
    (tensor.layer = none ∨ InBlocks layers tensor)) ∨
  (selector.biases = true ∧ tensor.isBias = true ∧ InBlocks layers tensor) ∨
  (selector.outputHead = true ∧ (tensor.name = outputHead ∨ tensor.name = outputHeadBias))

variable {layers : List ℕ} {tensor : TensorDesc}

theorem inRange_iff : inRange layers tensor = true ↔ InBlocks layers tensor := by
  unfold inRange InBlocks
  cases tensor.layer with
  | none => simp
  | some layer => simp

/-- A module's request hits what the module names. -/
theorem requestOf_hits {module : String} {request : Request} (h : requestOf module = .ok request)
    (layers : List ℕ) (tensor : TensorDesc) :
    request.isMatched = false ∧ request.written = trim module ∧
      (request.hits (inRange layers tensor) tensor = true ↔ ModuleNames layers module tensor) := by
  unfold requestOf at h
  dsimp only at h
  split_ifs at h with hempty hpattern
  · cases h
    refine ⟨rfl, rfl, ?_⟩
    rw [ModuleNames, if_pos hpattern, ← inRange_iff, ← wildcardMatch_iff]
    simp [Request.hits]
  · cases h
    refine ⟨rfl, rfl, ?_⟩
    rw [ModuleNames, if_neg hpattern, ← inRange_iff]
    simp [Request.hits, and_assoc]

/-- The whole test on one tensor. -/
def wanted (requests : List Request) (selector : TrainableSelector) (layers : List ℕ)
    (tensor : TensorDesc) : Bool :=
  (requests.any fun request => request.hits (inRange layers tensor) tensor) ||
    selector.wants (inRange layers tensor) tensor

variable {selector : TrainableSelector}

theorem wants_iff : selector.wants (inRange layers tensor) tensor = true ↔
      (selector.norms = true ∧ tensor.isNorm = true ∧ tensor.isBias = false ∧
        (tensor.layer = none ∨ InBlocks layers tensor)) ∨
      (selector.biases = true ∧ tensor.isBias = true ∧ InBlocks layers tensor) ∨
      (selector.outputHead = true ∧
        (tensor.name = outputHead ∨ tensor.name = outputHeadBias)) := by
  rw [← inRange_iff]
  simp only [TrainableSelector.wants, Bool.or_eq_true, Bool.and_eq_true, Bool.not_eq_true',
    Option.isNone_iff_eq_none, beq_iff_eq]
  tauto

theorem wanted_iff {requests : List Request}
    (h : Forall₂ (fun module request => requestOf module = .ok request) selector.modules requests)
    (tensor : TensorDesc) :
    wanted requests selector layers tensor = true ↔ Names selector layers tensor := by
  rw [wanted, Bool.or_eq_true, wants_iff, Names, any_eq_true]
  refine or_congr ?_ Iff.rfl
  generalize selector.modules = modules at h
  induction h with
  | nil => simp
  | @cons module request modules requests hrequest _ ih =>
    simp only [mem_cons, exists_eq_or_imp, ih, (requestOf_hits hrequest layers tensor).2.2]

/-! ### The scan of a selection -/

/-- A tensor the screens let through. -/
def Fit (inventory : TensorInventory) (tensor : TensorDesc) : Prop :=
  frozenReason inventory tensor = none ∧ ∀ row,
    architectureCapability inventory.architecture = some row → row.admits tensor.name = true

/-- A request after some tensors have been offered to it. -/
def Request.offered (layers : List ℕ) (tensors : List TensorDesc) (request : Request) : Request :=
  { request with isMatched := request.isMatched ||
      tensors.any fun tensor => request.hits (inRange layers tensor) tensor }

theorem Request.offered_offered (layers : List ℕ) (before after : List TensorDesc)
    (request : Request) : (request.offered layers before).offered layers after =
      request.offered layers (before ++ after) := by
  simp only [Request.offered, any_append, Bool.or_assoc]
  rfl

theorem wanted_offered (requests : List Request) (selector : TrainableSelector) (layers : List ℕ)
    (before : List TensorDesc) :
    wanted (requests.map (Request.offered layers before)) selector layers =
      wanted requests selector layers := by
  funext tensor
  rw [wanted, wanted, any_map]
  rfl

section Scan

variable {inventory : TensorInventory} {selector : TrainableSelector} {layers : List ℕ}

theorem checkFamily_iff {capability : ArchitectureCapability} {name : String} :
    checkFamilyIsTrainable capability name = .ok () ↔ capability.admits name = true := by
  unfold checkFamilyIsTrainable
  split_ifs with hadmits
  · exact iff_of_true rfl hadmits
  · exact iff_of_false (by simp) hadmits

theorem screenTensor_iff {tensor : TensorDesc} :
    screenTensor inventory tensor = .ok () ↔ Fit inventory tensor := by
  unfold screenTensor Fit
  cases frozenReason inventory tensor with
  | some reason => exact iff_of_false (by simp) fun h => by cases h.1
  | none =>
    cases architectureCapability inventory.architecture with
    | none => exact iff_of_true rfl ⟨rfl, fun row hrow => by cases hrow⟩
    | some row =>
      refine checkFamily_iff.trans ⟨fun h => ⟨rfl, fun row' hrow' => ?_⟩, fun h => h.2 row rfl⟩
      exact Option.some.inj hrow' ▸ h

/-- **One tensor is screened exactly if it is wanted.** -/
theorem selectTensor_iff {requests : List Request} {chosen : List TensorDesc} {tensor : TensorDesc}
    {next : List Request × List TensorDesc} :
    selectTensor inventory selector layers (requests, chosen) tensor = .ok next ↔
      (wanted requests selector layers tensor = true → Fit inventory tensor) ∧
      next = (requests.map (Request.offered layers [tensor]),
        chosen ++ [tensor].filter (wanted requests selector layers)) := by
  have hrequests : (requests.map fun request =>
      if request.hits (inRange layers tensor) tensor then { request with isMatched := true }
      else request) = requests.map (Request.offered layers [tensor]) := by
    refine map_congr_left fun request _ => ?_
    unfold Request.offered
    rw [any_cons, any_nil, Bool.or_false]
    split_ifs with hhits
    · rw [hhits, Bool.or_true]
    · rw [Bool.eq_false_iff.mpr hhits, Bool.or_false]
  unfold selectTensor
  dsimp only
  rw [hrequests]
  by_cases hwanted : wanted requests selector layers tensor = true
  · have hfilter : [tensor].filter (wanted requests selector layers) = [tensor] :=
      filter_cons_of_pos hwanted
    rw [if_neg (by rw [Bool.not_eq_true']; exact ne_false_of_eq_true hwanted), hfilter]
    constructor
    · intro h
      obtain ⟨⟨⟩, hscreen, h⟩ := ok_of_bind h
      exact ⟨fun _ => screenTensor_iff.mp hscreen, (Except.ok.inj h).symm⟩
    · rintro ⟨hfit, rfl⟩
      rw [screenTensor_iff.mpr (hfit hwanted)]
      rfl
  · have hfilter : [tensor].filter (wanted requests selector layers) = [] :=
      filter_cons_of_neg hwanted
    rw [if_pos (by rw [Bool.not_eq_true']; exact Bool.eq_false_iff.mpr hwanted), hfilter,
      append_nil]
    constructor
    · intro h
      exact ⟨fun h => absurd h hwanted, (Except.ok.inj h).symm⟩
    · rintro ⟨-, rfl⟩
      rfl

/-- **A scan ends well exactly if every tensor it wants passes the screens.** -/
theorem foldlM_selectTensor (tensors : List TensorDesc) {requests : List Request}
    {chosen : List TensorDesc} {result : List Request × List TensorDesc} :
    tensors.foldlM (selectTensor inventory selector layers) (requests, chosen) = .ok result ↔
      (∀ tensor ∈ tensors, wanted requests selector layers tensor = true → Fit inventory tensor) ∧
      result = (requests.map (Request.offered layers tensors),
        chosen ++ tensors.filter (wanted requests selector layers)) := by
  induction tensors generalizing requests chosen with
  | nil =>
    have hsame : requests.map (Request.offered layers []) = requests := by
      refine (map_congr_left fun request _ => ?_).trans (map_id requests)
      unfold Request.offered
      rw [any_nil, Bool.or_false]
      rfl
    rw [foldlM_nil, hsame, filter_nil, append_nil]
    constructor
    · intro h
      cases h
      exact ⟨fun _ h => absurd h not_mem_nil, rfl⟩
    · rintro ⟨-, rfl⟩
      rfl
  | cons tensor tensors ih =>
    have hrequests : (requests.map (Request.offered layers [tensor])).map
        (Request.offered layers tensors) =
        requests.map (Request.offered layers (tensor :: tensors)) := by
      rw [map_map]
      exact map_congr_left fun request _ => Request.offered_offered layers [tensor] tensors _
    have hchosen : chosen ++ [tensor].filter (wanted requests selector layers) ++
        tensors.filter (wanted requests selector layers) =
        chosen ++ (tensor :: tensors).filter (wanted requests selector layers) := by
      rw [append_assoc, ← filter_append, singleton_append]
    rw [foldlM_cons, forall_mem_cons]
    constructor
    · intro h
      obtain ⟨next, hfirst, hrest⟩ := ok_of_bind h
      obtain ⟨hfit, rfl⟩ := selectTensor_iff.mp hfirst
      obtain ⟨hfits, rfl⟩ := ih.mp hrest
      rw [wanted_offered] at hfits ⊢
      rw [hrequests, hchosen]
      exact ⟨⟨hfit, hfits⟩, rfl⟩
    · rintro ⟨⟨hfit, hfits⟩, rfl⟩
      rw [selectTensor_iff.mpr ⟨hfit, rfl⟩]
      refine ih.mpr ?_
      rw [wanted_offered, hrequests, hchosen]
      exact ⟨hfits, rfl⟩

end Scan

/-! ### Both policies -/

theorem bind_eq_ok {ε α β : Type} {x : Except ε α} {f : α → Except ε β} {b : β} :
    (x >>= f) = .ok b ↔ ∃ a, x = .ok a ∧ f a = .ok b := by
  refine ⟨ok_of_bind, ?_⟩
  rintro ⟨a, rfl, h⟩
  exact h

theorem refuseIf_iff {condition : Bool} {error : Error} :
    refuseIf condition error = .ok () ↔ condition = false := by
  cases condition
  · exact iff_of_true rfl rfl
  · exact iff_of_false (by simp [refuseIf]) (by simp)

/-- A tensor a full run takes. -/
def takes (inventory : TensorInventory) (row : ArchitectureCapability) (tensor : TensorDesc) : Bool :=
  (frozenReason inventory tensor).isNone && row.admits tensor.name

/-- Why a full run leaves a tensor alone. -/
def leftOut (inventory : TensorInventory) (row : ArchitectureCapability) (tensor : TensorDesc) :
    Option TrainableExclusion :=
  match frozenReason inventory tensor with
  | some reason => some ⟨tensor.name, reason⟩
  | none =>
    if row.admits tensor.name then none
    else some ⟨tensor.name, .unlistedFamily inventory.architecture (tensorFamily tensor.name)⟩

variable {inventory : TensorInventory} {row : ArchitectureCapability}

theorem leftOut_eq_none :
    leftOut inventory row tensor = none ↔ takes inventory row tensor = true := by
  unfold leftOut takes
  cases frozenReason inventory tensor with
  | some reason => simp
  | none => simp

theorem leftOut_name {exclusion : TrainableExclusion}
    (h : leftOut inventory row tensor = some exclusion) : exclusion.name = tensor.name := by
  unfold leftOut at h
  split at h
  · cases h
    rfl
  · split_ifs at h
    cases h
    rfl

theorem foldl_scanTensor (tensors : List TensorDesc) (scan : Scan) :
    tensors.foldl (scanTensor inventory row) scan =
      { set := { scan.set with
          exclusions := scan.set.exclusions ++ tensors.filterMap (leftOut inventory row) }
        unsupported := scan.unsupported ++ tensors.filter fun tensor =>
          takes inventory row tensor && !tensor.dtype.isTrainableBase
        candidates := scan.candidates ++ tensors.filter fun tensor =>
          takes inventory row tensor && tensor.dtype.isTrainableBase } := by
  induction tensors generalizing scan with
  | nil => simp
  | cons tensor tensors ih =>
    rw [foldl_cons, ih, filterMap_cons, filter_cons, filter_cons]
    unfold scanTensor leftOut takes
    cases frozenReason inventory tensor with
    | some reason => simp
    | none =>
      cases row.admits tensor.name <;> cases tensor.dtype.isTrainableBase <;> simp

theorem resolveFull_iff {set set' : TrainableSet} : resolveFull inventory set = .ok set' ↔
      ∃ row, architectureCapability inventory.architecture = some row ∧
        (∀ tensor ∈ inventory.tensors, takes inventory row tensor = true →
          tensor.dtype.isTrainableBase = true) ∧
        set' = pushDeduplicated (inventory.tensors.filter (takes inventory row)) { set with
          exclusions := set.exclusions ++ inventory.tensors.filterMap (leftOut inventory row) } := by
  unfold resolveFull
  cases architectureCapability inventory.architecture with
  | none => exact iff_of_false (by simp) fun ⟨row, hrow, _⟩ => by cases hrow
  | some row =>
    dsimp only
    rw [foldl_scanTensor]
    dsimp only
    rw [nil_append, nil_append]
    have hall : (inventory.tensors.filter fun tensor =>
        takes inventory row tensor && !tensor.dtype.isTrainableBase).isEmpty = true ↔
        ∀ tensor ∈ inventory.tensors, takes inventory row tensor = true →
          tensor.dtype.isTrainableBase = true := by
      rw [List.isEmpty_iff, filter_eq_nil_iff]
      simp
    have hsome (P : ArchitectureCapability → Prop) :
        (∃ row', some row = some row' ∧ P row') ↔ P row := by simp
    rw [hsome]
    split_ifs with hnone
    · have hdtype := hall.mp hnone
      have hcandidates : (inventory.tensors.filter fun tensor =>
          takes inventory row tensor && tensor.dtype.isTrainableBase) =
          inventory.tensors.filter (takes inventory row) := by
        refine filter_congr fun tensor htensor => ?_
        cases htakes : takes inventory row tensor with
        | false => rfl
        | true => rw [hdtype tensor htensor htakes]; rfl
      rw [hcandidates, Except.ok.injEq]
      exact ⟨fun h => ⟨hdtype, h.symm⟩, fun h => h.2.symm⟩
    · exact iff_of_false (by simp) fun h => hnone (hall.mpr h.1)

/-- What a selection asks of an inventory. -/
structure Selects (inventory : TensorInventory) (selector : TrainableSelector) (layers : List ℕ) :
    Prop where
  nonempty : selector.isEmpty = false
  resolve : selector.layers.resolve inventory.nLayer = .ok layers
  head : selector.outputHead = true → headIsSelectable inventory = .ok ()
  modules : ∀ module ∈ selector.modules, (trim module).isEmpty = false
  named : ∀ module ∈ selector.modules, ∃ tensor ∈ inventory.tensors,
    ModuleNames layers module tensor
  fit : ∀ tensor ∈ inventory.tensors, Names selector layers tensor → Fit inventory tensor
  dtype : ∀ tensor ∈ inventory.tensors, Names selector layers tensor →
    tensor.dtype.isTrainableBase = true

theorem requestOf_ok {module : String} :
    (∃ request, requestOf module = .ok request) ↔ (trim module).isEmpty = false := by
  unfold requestOf
  dsimp only
  split_ifs with hempty hpattern
  · exact iff_of_false (by simp) (by simp [hempty])
  · exact iff_of_true ⟨_, rfl⟩ (Bool.eq_false_iff.mpr hempty)
  · exact iff_of_true ⟨_, rfl⟩ (Bool.eq_false_iff.mpr hempty)

/-- No request is left unmatched exactly if every module names a tensor. -/
theorem unmatched_iff {modules : List String} {requests : List Request}
    (tensors : List TensorDesc)
    (h : Forall₂ (fun module request => requestOf module = .ok request) modules requests) :
    (!(((requests.map (Request.offered layers tensors)).filter fun request =>
        !request.isMatched).map Request.written).isEmpty) = false ↔
      ∀ module ∈ modules, ∃ tensor ∈ tensors, ModuleNames layers module tensor := by
  have hmatched : (!(((requests.map (Request.offered layers tensors)).filter fun request =>
      !request.isMatched).map Request.written).isEmpty) = false ↔
      ∀ request ∈ requests, (request.offered layers tensors).isMatched = true := by
    rw [Bool.not_eq_false', List.isEmpty_iff, map_eq_nil_iff, filter_eq_nil_iff]
    simp
  rw [hmatched]
  clear hmatched
  induction h with
  | nil => simp
  | @cons module request modules requests hrequest _ ih =>
    rw [forall_mem_cons, forall_mem_cons]
    refine and_congr ?_ ih
    obtain ⟨hfresh, -, -⟩ := requestOf_hits hrequest layers ⟨"", [], .f32, 0, 0, 0⟩
    rw [Request.offered, hfresh, Bool.false_or, any_eq_true]
    exact exists_congr fun tensor => and_congr_right fun _ =>
      (requestOf_hits hrequest layers tensor).2.2

open scoped Classical in
/-- **A selection resolves exactly if every tensor it names passes the screens** and every module
names one. -/
theorem resolveSelected_iff {set set' : TrainableSet} :
    resolveSelected inventory selector set = .ok set' ↔ ∃ layers,
      Selects inventory selector layers ∧ set' = pushDeduplicated
        (inventory.tensors.filter fun tensor => Names selector layers tensor) set := by
  have hfilter {layers : List ℕ} {requests : List Request}
      (h : Forall₂ (fun module request => requestOf module = .ok request) selector.modules
        requests) : inventory.tensors.filter (wanted requests selector layers) =
        inventory.tensors.filter fun tensor => Names selector layers tensor := by
    refine filter_congr fun tensor _ => ?_
    rw [Bool.eq_iff_iff, wanted_iff h, decide_eq_true_iff]
  have hdtypes {layers : List ℕ} : (!((inventory.tensors.filter fun tensor =>
      Names selector layers tensor).filter fun tensor =>
        !tensor.dtype.isTrainableBase).isEmpty) = false ↔
      ∀ tensor ∈ inventory.tensors, Names selector layers tensor →
        tensor.dtype.isTrainableBase = true := by
    rw [Bool.not_eq_false', List.isEmpty_iff, filter_eq_nil_iff]
    simp
  unfold resolveSelected
  constructor
  · intro h
    obtain ⟨⟨⟩, hempty, h⟩ := ok_of_bind h
    obtain ⟨layers, hlayers, h⟩ := ok_of_bind h
    obtain ⟨⟨⟩, hhead, h⟩ := ok_of_bind h
    obtain ⟨requests, hrequests, h⟩ := ok_of_bind h
    obtain ⟨scan, hscan, h⟩ := ok_of_bind h
    obtain ⟨⟨⟩, hunmatched, h⟩ := ok_of_bind h
    obtain ⟨⟨⟩, hdtype, h⟩ := ok_of_bind h
    obtain ⟨hfit, rfl⟩ := (foldlM_selectTensor _).mp hscan
    have hmodules := forall₂_of_mapM hrequests
    rw [refuseIf_iff, unmatched_iff _ hmodules] at hunmatched
    rw [refuseIf_iff, nil_append, hfilter hmodules, hdtypes] at hdtype
    rw [nil_append, hfilter hmodules] at h
    refine ⟨layers, ⟨refuseIf_iff.mp hempty, hlayers, fun hout => ?_, fun module hmodule => ?_,
      hunmatched, fun tensor htensor hnames => ?_, hdtype⟩, (Except.ok.inj h).symm⟩
    · rwa [checkHead, if_pos hout] at hhead
    · exact requestOf_ok.mp (ok_of_mem_mapM hrequests hmodule)
    · exact hfit tensor htensor ((wanted_iff hmodules tensor).mpr hnames)
  · rintro ⟨layers, h, rfl⟩
    obtain ⟨requests, hrequests, hmodules⟩ := mapM_ok (R := fun module request =>
      requestOf module = .ok request) fun module hmodule =>
        (requestOf_ok.mpr (h.modules module hmodule)).imp fun _ h => ⟨h, h⟩
    have hscan := (@foldlM_selectTensor inventory selector layers inventory.tensors requests []
      _).mpr ⟨fun tensor htensor hwanted =>
        h.fit tensor htensor ((wanted_iff hmodules tensor).mp hwanted), rfl⟩
    rw [nil_append, hfilter hmodules] at hscan
    have hhead : checkHead inventory selector = .ok () := by
      unfold checkHead
      split_ifs with hout
      · exact h.head hout
      · rfl
    refine bind_eq_ok.mpr ⟨(), refuseIf_iff.mpr h.nonempty, bind_eq_ok.mpr ⟨layers, h.resolve,
      bind_eq_ok.mpr ⟨(), hhead, bind_eq_ok.mpr ⟨requests, hrequests,
        bind_eq_ok.mpr ⟨_, hscan, bind_eq_ok.mpr ⟨(), refuseIf_iff.mpr ?_,
          bind_eq_ok.mpr ⟨(), refuseIf_iff.mpr (hdtypes.mpr h.dtype), rfl⟩⟩⟩⟩⟩⟩⟩
    exact (unmatched_iff _ hmodules).mpr h.named

end Retrograd.Trainable
