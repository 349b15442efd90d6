import Mathlib.Logic.Basic

set_option autoImplicit true

/-- Programs over a state that may raise an error, which leaves the state as it is by then, or may
never return. -/
abbrev Prog (σ ε : Type) := ExceptT ε (StateT σ Option)

namespace Prog

variable {σ ε α β : Type} {m : Prog σ ε α} {f : α → Prog σ ε β} {s t : σ}
  {Q Q' : α → σ → Prop} {R : β → σ → Prop} {E F : σ → Prop}

def never : Prog σ ε α := fun _ => none

def lift (x : Except ε α) : Prog σ ε α := fun s => some (x, s)

/-- The program returns: with a result as `Q` says, or with an error in a state as `E` says. -/
def wp (m : Prog σ ε α) (Q : α → σ → Prop) (E : σ → Prop) (s : σ) : Prop :=
  (∃ a t, m s = some (.ok a, t) ∧ Q a t) ∨ ∃ e t, m s = some (.error e, t) ∧ E t

theorem wp_mono (h : wp m Q E s) (hQ : ∀ a t, Q a t → Q' a t) (hE : ∀ t, E t → F t) :
    wp m Q' F s := by
  rcases h with ⟨a, t, hm, ha⟩ | ⟨e, t, hm, he⟩
  · exact .inl ⟨a, t, hm, hQ a t ha⟩
  · exact .inr ⟨e, t, hm, hE t he⟩

theorem wp_ok (hm : m s = some (.ok a, t)) (h : Q a t) : wp m Q E s := .inl ⟨a, t, hm, h⟩

theorem wp_error (hm : m s = some (.error e, t)) (h : E t) : wp m Q E s := .inr ⟨e, t, hm, h⟩

theorem wp_pure (a : α) (h : Q a s) : wp (pure a : Prog σ ε α) Q E s := wp_ok rfl h

theorem wp_throw (e : ε) (h : E s) : wp (throw e : Prog σ ε α) Q E s := wp_error rfl h

theorem wp_lift {x : Except ε α} (hok : ∀ a, x = .ok a → Q a s) (herr : ∀ e, x = .error e → E s) :
    wp (lift x : Prog σ ε α) Q E s := by
  cases x with
  | ok a => exact wp_ok rfl (hok a rfl)
  | error e => exact wp_error rfl (herr e rfl)

theorem wp_get {Q : σ → σ → Prop} (h : Q s s) : wp (get : Prog σ ε σ) Q E s := wp_ok rfl h

theorem wp_modify {Q : Unit → σ → Prop} (g : σ → σ) (h : Q () (g s)) :
    wp (modify g : Prog σ ε Unit) Q E s := wp_ok rfl h

theorem bind_ok (hm : m s = some (.ok a, t)) (f : α → Prog σ ε β) : (m >>= f) s = f a t := by
  change (m s).bind _ = _
  rw [hm]
  rfl

theorem bind_error (hm : m s = some (.error e, t)) (f : α → Prog σ ε β) :
    (m >>= f) s = some (.error e, t) := by
  change (m s).bind _ = _
  rw [hm]
  rfl

theorem wp_bind (h : wp m (fun a t => wp (f a) R E t) E s) : wp (m >>= f) R E s := by
  rcases h with ⟨a, t, hm, h⟩ | ⟨e, t, hm, h⟩
  · rcases h with ⟨b, u, hb, h⟩ | ⟨e, u, hb, h⟩
    · exact wp_ok ((bind_ok hm f).trans hb) h
    · exact wp_error ((bind_ok hm f).trans hb) h
  · exact wp_error (bind_error hm f) h

theorem wp_seq (h : wp m Q F s) (hE : ∀ t, F t → E t) (hf : ∀ a t, Q a t → wp (f a) R E t) :
    wp (m >>= f) R E s :=
  wp_bind (wp_mono h hf hE)

theorem wp.result (h : wp m Q E s) : ∃ r t, m s = some (r, t) ∧ ((∃ a, Q a t) ∨ E t) := by
  rcases h with ⟨a, t, hm, h⟩ | ⟨e, t, hm, h⟩
  · exact ⟨_, t, hm, .inl ⟨a, h⟩⟩
  · exact ⟨_, t, hm, .inr h⟩

def Raises (m : Prog σ ε α) (s t : σ) : Prop := ∃ e, m s = some (.error e, t)

theorem wp.raises (h : wp m Q E s) (hr : Raises m s t) : E t := by
  obtain ⟨e, he⟩ := hr
  rcases h with ⟨a, u, hm, _⟩ | ⟨e', u, hm, hu⟩
  · cases hm.symm.trans he
  · cases hm.symm.trans he
    exact hu

theorem raises_bind : Raises (m >>= f) s t ↔
    Raises m s t ∨ ∃ a u, m s = some (.ok a, u) ∧ Raises (f a) u t := by
  rcases hm : m s with _ | ⟨_ | a, u⟩
  · have hf : (m >>= f) s = none := by
      change (m s).bind _ = _
      rw [hm]
      rfl
    simp [Raises, hf, hm]
  · next e => simp [Raises, bind_error hm f, hm]
  · rw [Raises, bind_ok hm f]
    constructor
    · intro hr
      exact .inr ⟨a, u, rfl, hr⟩
    · rintro (⟨e, he⟩ | ⟨a', u', he, hr⟩)
      · cases hm.symm.trans he
      · cases he
        exact hr

theorem raises_pure (a : α) : ¬ Raises (pure a : Prog σ ε α) s t := by
  rintro ⟨e, he⟩
  cases he

theorem raises_throw (e : ε) : Raises (throw e : Prog σ ε α) s t ↔ t = s := by
  constructor
  · rintro ⟨e', he⟩
    cases he
    rfl
  · rintro rfl
    exact ⟨e, rfl⟩

theorem raises_lift {x : Except ε α} :
    Raises (lift x : Prog σ ε α) s t ↔ (∃ e, x = .error e) ∧ t = s := by
  constructor
  · rintro ⟨e, he⟩
    cases he
    exact ⟨⟨e, rfl⟩, rfl⟩
  · rintro ⟨⟨e, rfl⟩, rfl⟩
    exact ⟨e, rfl⟩

theorem raises_get_bind {f : σ → Prog σ ε β} : Raises (get >>= f) s t ↔ Raises (f s) s t := Iff.rfl

theorem raises_modify_bind (g : σ → σ) {f : Unit → Prog σ ε β} :
    Raises (modify g >>= f) s t ↔ Raises (f ()) (g s) t := Iff.rfl

theorem raises_lift_bind {x : Except ε α} : Raises (lift x >>= f) s t ↔
    (∃ e, x = .error e) ∧ t = s ∨ ∃ a, x = .ok a ∧ Raises (f a) s t := by
  rw [raises_bind, raises_lift]
  apply or_congr_right
  constructor
  · rintro ⟨a, u, he, hr⟩
    cases he
    exact ⟨a, rfl, hr⟩
  · rintro ⟨a, rfl, hr⟩
    exact ⟨a, s, rfl, hr⟩

/-- If the program returns, then with a result as `Q` says, or with an error in a state as `E`
says. -/
def wlp (m : Prog σ ε α) (Q : α → σ → Prop) (E : σ → Prop) (s : σ) : Prop :=
  (∀ a t, m s = some (.ok a, t) → Q a t) ∧ ∀ e t, m s = some (.error e, t) → E t

theorem wp.wlp (h : wp m Q E s) : wlp m Q E s := by
  rcases h with ⟨a, t, hm, ha⟩ | ⟨e, t, hm, he⟩
  · refine ⟨fun a' t' h' => ?_, fun e' t' h' => ?_⟩
    · cases hm.symm.trans h'
      exact ha
    · cases hm.symm.trans h'
  · refine ⟨fun a' t' h' => ?_, fun e' t' h' => ?_⟩
    · cases hm.symm.trans h'
    · cases hm.symm.trans h'
      exact he

theorem wlp_mono (h : wlp m Q E s) (hQ : ∀ a t, Q a t → Q' a t) (hE : ∀ t, E t → F t) :
    wlp m Q' F s :=
  ⟨fun a t hm => hQ a t (h.1 a t hm), fun e t hm => hE t (h.2 e t hm)⟩

theorem wlp_pure (a : α) (h : Q a s) : wlp (pure a : Prog σ ε α) Q E s := (wp_pure a h).wlp

theorem wlp_throw (e : ε) (h : E s) : wlp (throw e : Prog σ ε α) Q E s := (wp_throw e h).wlp

theorem wlp_lift {x : Except ε α} (hok : ∀ a, x = .ok a → Q a s) (herr : ∀ e, x = .error e → E s) :
    wlp (lift x : Prog σ ε α) Q E s := (wp_lift hok herr).wlp

theorem wlp_get {Q : σ → σ → Prop} (h : Q s s) : wlp (get : Prog σ ε σ) Q E s := (wp_get h).wlp

theorem wlp_modify {Q : Unit → σ → Prop} (g : σ → σ) (h : Q () (g s)) :
    wlp (modify g : Prog σ ε Unit) Q E s := (wp_modify g h).wlp

theorem wlp_bind (h : wlp m (fun a t => wlp (f a) R E t) E s) : wlp (m >>= f) R E s := by
  cases hm : m s with
  | none =>
    have hf : (m >>= f) s = none := by
      change (m s).bind _ = _
      rw [hm]
      rfl
    refine ⟨fun a t ht => ?_, fun e t ht => ?_⟩
    · cases hf.symm.trans ht
    · cases hf.symm.trans ht
  | some p =>
    obtain ⟨r, t⟩ := p
    cases r with
    | ok a =>
      have hf := h.1 a t hm
      refine ⟨fun b u hu => hf.1 b u ?_, fun e u hu => hf.2 e u ?_⟩
      · rwa [bind_ok hm f] at hu
      · rwa [bind_ok hm f] at hu
    | error e =>
      have he := h.2 e t hm
      refine ⟨fun b u hu => ?_, fun e' u hu => ?_⟩
      · cases (bind_error hm f).symm.trans hu
      · cases (bind_error hm f).symm.trans hu
        exact he

theorem wlp_seq (h : wlp m Q F s) (hE : ∀ t, F t → E t) (hf : ∀ a t, Q a t → wlp (f a) R E t) :
    wlp (m >>= f) R E s :=
  wlp_bind (wlp_mono h hf hE)

theorem wlp.result (h : wlp m Q E s) {r : Except ε α} (hm : m s = some (r, t)) :
    (∃ a, Q a t) ∨ E t := by
  cases r with
  | ok a => exact .inl ⟨a, h.1 a t hm⟩
  | error e => exact .inr (h.2 e t hm)

/-- Whatever the program returns or raises, if it ends at all, it leaves `I` as it was. -/
def Keeps (I : σ → Prop) (m : Prog σ ε α) : Prop := ∀ s r t, I s → m s = some (r, t) → I t

theorem keeps_pure {I : σ → Prop} (a : α) : Keeps I (pure a : Prog σ ε α) := by
  intro s r t hs hr
  cases hr
  exact hs

theorem keeps_throw {I : σ → Prop} (e : ε) : Keeps I (throw e : Prog σ ε α) := by
  intro s r t hs hr
  cases hr
  exact hs

theorem keeps_lift {I : σ → Prop} (x : Except ε α) : Keeps I (lift x : Prog σ ε α) := by
  intro s r t hs hr
  cases hr
  exact hs

theorem keeps_modify {I : σ → Prop} {g : σ → σ} (hg : ∀ s, I s → I (g s)) :
    Keeps I (modify g : Prog σ ε Unit) := by
  intro s r t hs hr
  cases hr
  exact hg s hs

theorem keeps_bind {I : σ → Prop} (hm : Keeps I m) (hf : ∀ a, Keeps I (f a)) :
    Keeps I (m >>= f) := by
  intro s r t hs hr
  cases he : m s with
  | none =>
    change (m s).bind _ = _ at hr
    rw [he] at hr
    cases hr
  | some p =>
    obtain ⟨r', u⟩ := p
    have hu := hm s r' u hs he
    cases r' with
    | error e =>
      cases (bind_error he f).symm.trans hr
      exact hu
    | ok a => exact hf a u r t hu ((bind_ok he f).symm.trans hr)

theorem keeps_lift_bind {I : σ → Prop} {x : Except ε α} (hf : ∀ a, x = .ok a → Keeps I (f a)) :
    Keeps I (lift x >>= f) := by
  cases x with
  | ok a =>
    intro s r t hs hr
    exact hf a rfl s r t hs ((bind_ok rfl f).symm.trans hr)
  | error e =>
    intro s r t hs hr
    cases (bind_error rfl f).symm.trans hr
    exact hs

theorem keeps_get_bind {I : σ → Prop} {f : σ → Prog σ ε β} (hf : ∀ s, I s → Keeps I (f s)) :
    Keeps I (get >>= f) := by
  intro s r t hs hr
  exact hf s hs s r t hs hr

theorem keeps_ite {I : σ → Prop} {c : Prop} [Decidable c] {m m' : Prog σ ε α}
    (h : Keeps I m) (h' : Keeps I m') : Keeps I (if c then m else m') := by
  split
  · exact h
  · exact h'

theorem foldlM_invariant {g : β → α → Except ε β} {P : β → Prop} {l : List α} {b b' : β}
    (hstep : ∀ a ∈ l, ∀ b b', P b → g b a = .ok b' → P b') (hb : P b)
    (h : l.foldlM g b = .ok b') : P b' := by
  induction l generalizing b with
  | nil =>
    cases h
    exact hb
  | cons a l ih =>
    rw [List.foldlM_cons] at h
    cases hg : g b a with
    | error e =>
      rw [hg] at h
      cases h
    | ok c =>
      rw [hg] at h
      exact ih (fun a ha => hstep a (List.mem_cons_of_mem _ ha))
        (hstep a List.mem_cons_self b c hb hg) h

end Prog
