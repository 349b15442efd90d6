import Mathlib.Data.List.Basic

namespace Skyext
set_option autoImplicit true

/-- An update of a document: under which fence and from which version it is written, by which
node and cached copy, and how many updates that copy knows of. -/
structure Write (U : Type) where
  fence : Nat
  version : Nat
  update : U
  node : Nat
  entry : Nat
  seen : Nat
  deriving DecidableEq

/-- A stored document of one key. Beside its fields, `_version` and `_fence` it carries what it
was when it came to be, the updates since then, and the fences claimed on it, each with the
number of updates before it. -/
structure Document (F U : Type) where
  fields : F
  version : Nat
  fence : Option Nat
  origin : F
  originVersion : Nat
  writes : List (Write U)
  claims : List (Nat × Nat)
  deriving DecidableEq

namespace Document

/-- A document as it is first found or inserted. -/
def first (fields : F) (version : Nat) (fence : Option Nat) : Document F U :=
  ⟨fields, version, fence, fields, version, [], (fence.map fun f => (f, 0)).toList⟩

/-- `$or: _fence <= fence, _fence missing`. -/
def claimable (fence : Nat) (d : Document F U) : Bool := d.fence.all (· ≤ fence)

/-- `$set: _fence`. -/
def claim (fence : Nat) (d : Document F U) : Document F U :=
  { d with fence := some fence, claims := (fence, d.writes.length) :: d.claims }

def updatable (fence version : Nat) (d : Document F U) : Bool :=
  d.version = version ∧ d.fence = some fence

/-- `$set` and `$unset` of a snapshot, with the next `_version`. -/
def write (apply : U → F → F) (w : Write U) (d : Document F U) : Document F U :=
  { d with
    fields := apply w.update d.fields, version := w.version + 1, writes := d.writes ++ [w] }

/-- Replays updates over the fields of a document. -/
def replay (apply : U → F → F) (fields : F) (writes : List (Write U)) : F :=
  writes.foldl (fun fields w => apply w.update fields) fields

/-- What the record of a document says about it. -/
structure Ok (apply : U → F → F) (d : Document F U) : Prop where
  fields : d.fields = replay apply d.origin d.writes
  version : d.version = d.originVersion + d.writes.length
  claimed : ∀ f, d.fence = some f → ∃ n, (f, n) ∈ d.claims ∧ n ≤ d.writes.length
  fenced : ∀ f n, (f, n) ∈ d.claims →
    (∃ g, d.fence = some g ∧ f ≤ g) ∧ ∀ w ∈ d.writes.drop n, f ≤ w.fence
  writes : ∀ i w, d.writes[i]? = some w → w.version = d.originVersion + i ∧ w.seen = i

structure Grows (d e : Document F U) : Prop where
  origin : e.origin = d.origin
  originVersion : e.originVersion = d.originVersion
  writes : d.writes <+: e.writes
  claims : ∀ c ∈ d.claims, c ∈ e.claims
  fence : ∀ f, d.fence = some f → ∃ g, e.fence = some g ∧ f ≤ g

variable {apply : U → F → F} {d e g : Document F U} {fence version f n : Nat}

theorem Grows.refl (d : Document F U) : d.Grows d :=
  ⟨rfl, rfl, List.prefix_rfl, fun _ h => h, fun f h => ⟨f, h, Nat.le_refl f⟩⟩

theorem Grows.trans (h : d.Grows e) (h' : e.Grows g) : d.Grows g := by
  refine ⟨h'.origin.trans h.origin, h'.originVersion.trans h.originVersion,
    h.writes.trans h'.writes, fun c hc => h'.claims c (h.claims c hc), fun f hf => ?_⟩
  obtain ⟨f', hf', hle⟩ := h.fence f hf
  obtain ⟨f'', hf'', hle'⟩ := h'.fence f' hf'
  exact ⟨f'', hf'', Nat.le_trans hle hle'⟩

theorem Ok.first (fields : F) (version : Nat) (fence : Option Nat) :
    (Document.first fields version fence).Ok apply := by
  refine ⟨rfl, rfl, fun f hf => ?_, fun f n hc => ?_, fun i w hw => ?_⟩
  · cases hf
    exact ⟨0, List.mem_singleton.mpr rfl, Nat.le_refl 0⟩
  · cases fence with
    | none => simp [Document.first] at hc
    | some g =>
      cases List.mem_singleton.mp hc
      exact ⟨⟨f, rfl, Nat.le_refl f⟩, fun w hw => absurd hw (by simp [Document.first])⟩
  · simp [Document.first] at hw

theorem claimable_spec (h : d.claimable fence = true) (hf : d.fence = some f) : f ≤ fence := by
  simpa only [claimable, hf, Option.all_some, decide_eq_true_eq] using h

theorem grows_claim (h : d.claimable fence = true) : d.Grows (d.claim fence) :=
  ⟨rfl, rfl, List.prefix_rfl, fun _ hc => .tail _ hc,
    fun _ hf => ⟨fence, rfl, claimable_spec h hf⟩⟩

theorem Ok.claim (h : d.Ok apply) (hc : d.claimable fence = true) :
    (d.claim fence).Ok apply := by
  refine ⟨h.fields, h.version, fun f hf => ?_, fun f n hm => ?_, h.writes⟩
  · cases hf
    exact ⟨d.writes.length, .head _, Nat.le_refl _⟩
  · rcases List.mem_cons.mp hm with he | hm
    · cases he
      refine ⟨⟨fence, rfl, Nat.le_refl fence⟩, fun w hw => ?_⟩
      have hnil : d.writes.drop d.writes.length = [] := List.drop_length
      rw [Document.claim, hnil] at hw
      cases hw
    · obtain ⟨⟨g, hg, hle⟩, hw⟩ := h.fenced f n hm
      exact ⟨⟨fence, rfl, Nat.le_trans hle (claimable_spec hc hg)⟩, hw⟩

theorem grows_write (w : Write U) (d : Document F U) : d.Grows (d.write apply w) :=
  ⟨rfl, rfl, List.prefix_append _ _, fun _ hc => hc, fun f hf => ⟨f, hf, Nat.le_refl f⟩⟩

/-- Every fence claimed so far is below that of an update that takes effect. -/
theorem Ok.updatable (h : d.Ok apply) (hu : d.updatable fence version = true)
    (hc : (f, n) ∈ d.claims) : f ≤ fence := by
  obtain ⟨⟨g, hg, hle⟩, _⟩ := h.fenced f n hc
  simp only [Document.updatable, Bool.decide_and, Bool.and_eq_true, decide_eq_true_eq] at hu
  cases hu.2.symm.trans hg
  exact hle

theorem Ok.write {w : Write U} (h : d.Ok apply) (hu : d.updatable w.fence w.version = true)
    (hseen : w.version = d.originVersion + w.seen) : (d.write apply w).Ok apply := by
  have hv : d.version = w.version := by
    simp only [Document.updatable, Bool.decide_and, Bool.and_eq_true, decide_eq_true_eq] at hu
    exact hu.1
  have hlen : w.seen = d.writes.length := by
    have := h.version
    omega
  refine ⟨?_, ?_, fun f hf => ?_, fun f n hc => ?_, fun i v hi => ?_⟩
  · simp only [Document.write, replay, List.foldl_append, List.foldl_cons, List.foldl_nil]
    rw [h.fields]
    rfl
  · simp only [Document.write, List.length_append, List.length_singleton]
    omega
  · obtain ⟨n, hc, hn⟩ := h.claimed f hf
    exact ⟨n, hc, Nat.le_trans hn (by simp [Document.write])⟩
  · obtain ⟨hg, hw⟩ := h.fenced f n hc
    refine ⟨hg, fun v hv => ?_⟩
    simp only [Document.write, List.drop_append, List.mem_append] at hv
    rcases hv with hv | hv
    · exact hw v hv
    · cases List.mem_singleton.mp (List.mem_of_mem_drop hv)
      exact h.updatable hu hc
  · simp only [Document.write] at hi ⊢
    rw [List.getElem?_append] at hi
    split at hi
    · exact h.writes i v hi
    · next hlt =>
      rw [List.getElem?_singleton] at hi
      split at hi
      · cases hi
        exact ⟨by omega, by omega⟩
      · cases hi

end Document

end Skyext
