import Mathlib.Data.List.Induction
import Mathlib.Order.Fin.Basic
import Skyext.Lib.Lexicographic

namespace Skyext
set_option autoImplicit true

namespace Etcd

abbrev Bytes := List (Fin 256)

/-- What a range request and a watch ask for: the keys from `key` on, up to `rangeEnd`. -/
structure Range where
  key : Bytes
  rangeEnd : Bytes
  deriving DecidableEq

/-- A range end of one zero byte stands for the end of the keyspace. -/
def Range.Covers (r : Range) (k : Bytes) : Prop := r.key ≤ k ∧ (r.rangeEnd = [0] ∨ k < r.rangeEnd)

def realKey (keyPrefix key : Bytes) : Bytes := keyPrefix ++ key

/-- The loop of `range_end` with `i` bytes left to look at. -/
def rangeEndFrom (key : Bytes) : Nat → Bytes
  | 0 => [0]
  | i + 1 =>
    match key[i]? with
    | some b => if b < 0xff then key.take i ++ [b + 1] else rangeEndFrom key i
    | none => rangeEndFrom key i

def rangeEnd (key : Bytes) : Bytes := rangeEndFrom key key.length

/-- The scan of a prefix; the keyspace begins at a zero byte. -/
def scan (p : Bytes) : Range := ⟨if p = [] then [0] else p, rangeEnd p⟩

/-- The range of `readdir` and `rmdir`, which `verify_key` keeps from empty keys. -/
def readdir (keyPrefix key : Bytes) : Option Range :=
  if key = [] then none else some ⟨realKey keyPrefix key, rangeEnd (realKey keyPrefix key)⟩

def watchdir (keyPrefix key : Bytes) : Range :=
  ⟨if key = [] then [0] else realKey keyPrefix key, rangeEnd (realKey keyPrefix key)⟩

theorem rangeEndFrom_spec (pre : Bytes) (n : Nat) :
    (∃ m, pre = List.replicate m 255 ∧
      rangeEndFrom (pre ++ List.replicate n 255) pre.length = [0]) ∨
    ∃ p b m, b < 255 ∧ pre = p ++ b :: List.replicate m 255 ∧
      rangeEndFrom (pre ++ List.replicate n 255) pre.length = p ++ [b + 1] := by
  induction pre using List.reverseRecOn generalizing n with
  | nil => exact .inl ⟨0, rfl, rfl⟩
  | append_singleton pre b ih =>
    rw [List.length_append, List.length_singleton, List.append_assoc, List.singleton_append]
    by_cases hb : b < 255
    · refine .inr ⟨pre, b, 0, hb, rfl, ?_⟩
      simp [rangeEndFrom, hb]
    · have he : b = 255 := by omega
      subst he
      have hstep : rangeEndFrom (pre ++ 255 :: List.replicate n 255) (pre.length + 1) =
          rangeEndFrom (pre ++ List.replicate (n + 1) 255) pre.length := by
        simp [rangeEndFrom, List.replicate_succ]
      rw [hstep]
      rcases ih (n + 1) with ⟨m, rfl, hr⟩ | ⟨p, b, m, hb', rfl, hr⟩
      · exact .inl ⟨m + 1, List.replicate_succ'.symm, hr⟩
      · exact .inr ⟨p, b, m + 1, hb', by simp [List.replicate_succ'], hr⟩

theorem rangeEnd_spec (p : Bytes) :
    (∃ m, p = List.replicate m 255 ∧ rangeEnd p = [0]) ∨
    ∃ q b m, b < 255 ∧ p = q ++ b :: List.replicate m 255 ∧ rangeEnd p = q ++ [b + 1] := by
  have h := rangeEndFrom_spec p 0
  rw [List.replicate_zero, List.append_nil] at h
  exact h

theorem covBy_succ {b : Fin 256} (hb : b < 255) : b ⋖ b + 1 := by
  constructor
  · omega
  · intro x hx hlt
    omega

theorem covers_rangeEnd (p k : Bytes) : Range.Covers ⟨p, rangeEnd p⟩ k ↔ p <+: k := by
  have hm : ∀ x : Fin 256, x ≤ 255 := fun x => by omega
  rcases rangeEnd_spec p with ⟨m, rfl, hr⟩ | ⟨q, b, m, hb, rfl, hr⟩
  · simp only [Range.Covers, hr, true_or, and_true]
    exact Lexicographic.replicate_le_iff hm m
  · have hne : q ++ [b + 1] ≠ [0] := by
      intro h
      have h : q ++ [b + 1] = [] ++ [0] := h
      have h := List.singleton_inj.mp (List.append_inj' h rfl).2
      omega
    simp only [Range.Covers, hr, hne, false_or]
    exact Lexicographic.prefix_iff hm (covBy_succ hb) q m k

/-- The intervals of the requests are those of their prefixes, but for the empty key, which no
store has. -/
theorem prefix_scanned (p k keyPrefix key : Bytes) (hk : p = [] → k ≠ []) :
    ((scan p).Covers k ↔ p <+: k) ∧
      (∀ r, readdir keyPrefix key = some r → (r.Covers k ↔ realKey keyPrefix key <+: k)) ∧
      (key ≠ [] → ((watchdir keyPrefix key).Covers k ↔ realKey keyPrefix key <+: k)) := by
  refine ⟨?_, ?_, ?_⟩
  · by_cases hp : p = []
    · subst hp
      have hle : [0] ≤ k := by
        cases k with
        | nil => exact absurd rfl (hk rfl)
        | cons x k =>
          rw [Lexicographic.cons_le_cons_iff]
          rcases Fin.eq_zero_or_eq_succ x with rfl | ⟨y, rfl⟩
          · exact .inr ⟨rfl, Lexicographic.nil_le k⟩
          · exact .inl (Fin.succ_pos y)
      have hend : rangeEnd [] = [0] := rfl
      simp [scan, Range.Covers, hend, hle]
    · simp only [scan, hp, if_false]
      exact covers_rangeEnd p k
  · intro r hr
    rw [readdir] at hr
    split at hr
    · cases hr
    · cases hr
      exact covers_rangeEnd _ k
  · intro hkey
    simp only [watchdir, hkey, if_false]
    exact covers_rangeEnd _ k

theorem prefix_scanned_greatest : (scan [97, 255, 255]).Covers [97, 255, 255, 1] :=
  (prefix_scanned [97, 255, 255] [97, 255, 255, 1] [] [] (by decide)).1.mpr ⟨[1], rfl⟩

/-- The empty prefix is scanned from a zero byte, which comes after the empty key. -/
theorem empty_key_missed : ¬ ∀ p k : Bytes, (scan p).Covers k ↔ p <+: k := by
  intro h
  have hc := (h [] []).mpr (List.prefix_refl [])
  exact absurd hc.1 Lexicographic.not_cons_le_nil

end Etcd
end Skyext
