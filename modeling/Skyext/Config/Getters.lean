import Skyext.Config.Trip

namespace Skyext
set_option autoImplicit true

namespace Config

open LuaNumber (minInteger maxInteger)

open Machine

variable {ω : Type} {L : Lua ω} {config : AppConfig} {s : Service ω}

theorem setenv_eq {env env' : Environment} (h : setenv env k v = some env') :
    env' k = some v ∧ ∀ k', env k' ≠ none → env' k' = env k' := by
  rw [setenv] at h
  split at h
  · next hk =>
    cases h
    refine ⟨Function.update_self _ _ _, fun k' hk' => Function.update_of_ne ?_ _ _⟩
    rintro rfl
    exact hk' hk
  · cases h

theorem setenvAll_eq {result : List (Text × Value)} {env env' : Environment}
    (h : setenvAll env result = some env') :
    (∀ e ∈ result, env' e.1 = some e.2.text) ∧ ∀ k, env k ≠ none → env' k = env k := by
  induction result generalizing env with
  | nil =>
    cases h
    exact ⟨by simp, fun _ _ => rfl⟩
  | cons e result ih =>
    obtain ⟨k, v⟩ := e
    obtain ⟨env₁, h₁, h₂⟩ := Option.bind_eq_some_iff.mp h
    obtain ⟨hset, hkeep⟩ := setenv_eq h₁
    obtain ⟨hall, hrest⟩ := ih h₂
    refine ⟨fun e he => ?_, fun k' hk' => ?_⟩
    · rcases List.mem_cons.mp he with rfl | he
      · rw [hrest k (by rw [hset]; simp)]
        exact hset
      · exact hall e he
    · rw [hrest k' (by rw [hkeep k' hk']; exact hk'), hkeep k' hk']

theorem init_eq {loadConfig : Text → Option (List (Text × Value))} {env env' : Environment}
    {result : List (Text × Value)} {path : Text} (hnew : env (word "app_config_loaded") = none)
    (hpath : env (word "app_config_path") = some path) (hload : loadConfig path = some result)
    (h : init loadConfig env = some env') : ∀ e ∈ result, env' e.1 = some e.2.text := by
  simp only [init, hnew, hpath, hload, Option.bind_eq_bind, Option.bind_some] at h
  obtain ⟨env₁, -, h₂⟩ := Option.bind_eq_some_iff.mp h
  exact (setenvAll_eq h₂).1

theorem getAs_env (convert : Text → Option (Form ω)) (key : Text) (s : Service ω) :
    (s.getAs convert key).2.env = s.env := by
  rw [Service.getAs]
  split
  · rfl
  · split <;> rfl

theorem getTable_env (key : Text) (s : Service ω) : (s.getTable L key).2.env = s.env := by
  have hget : (s.get key).2.env = s.env := getAs_env _ key s
  rw [Service.getTable]
  generalize s.get key = r at hget
  obtain ⟨x, s'⟩ := r
  simp only
  split
  · split <;> exact hget
  · exact hget

theorem run_env (c : Call) (s : Service ω) : (c.run L s).2.env = s.env := by
  obtain ⟨g, key⟩ := c
  cases g with
  | get => exact getAs_env _ key s
  | getBoolean => exact getAs_env _ key s
  | getNumber => exact getAs_env _ key s
  | getTable => exact getTable_env key s

/-- The environment of a service has the texts of the configuration. -/
theorem env_text (h : (service L config).Reaches anyStep s) :
    ∀ e ∈ config.entries, s.env e.1 = some e.2.text := by
  refine h.invariant (I := fun s => ∀ e ∈ config.entries, s.env e.1 = some e.2.text) ?_ ?_
  · rintro s ⟨loadConfig, env, path, hnew, hpath, hload, hinit, -⟩
    exact init_eq hnew hpath hload hinit
  · intro s c t hs _ ht
    cases ht
    rw [run_env]
    exact hs

theorem getAs_cached {convert : Text → Option (Form ω)} {key : Text} {x : Form ω}
    (h : s.conf key = some x) : s.getAs convert key = (some x, s) := by
  rw [Service.getAs, h]

theorem getAs_fresh {convert : Text → Option (Form ω)} {key text : Text}
    (h : s.conf key = none) (henv : s.env key = some text) :
    s.getAs convert key = (convert text, s.store key (convert text)) := by
  simp [Service.getAs, h, henv, Service.store]

theorem getTable_cached {key : Text} {entries : List (Scalar × Value)}
    (h : s.conf key = some (.value (.table entries))) :
    s.getTable L key = (some (some (.value (.table entries))), s) := by
  simp [Service.getTable, Service.get, getAs_cached h]

theorem getTable_text {key text : Text} {x : Option (Form ω)}
    (h : s.conf key = some (.string text) ∨ s.conf key = none ∧ s.env key = some text)
    (hload : L.load text = some x) : (s.getTable L key).1 = some x := by
  rcases h with h | ⟨h, henv⟩
  · simp [Service.getTable, Service.get, getAs_cached h, Form.string, hload]
  · simp [Service.getTable, Service.get, getAs_fresh h henv, Form.string, hload]

theorem load_table {entries : List (Scalar × Value)} (hv : (Value.table entries).Valid)
    (ht : (Value.table entries).Travels L.depth) :
    L.load (serialize (.table entries)) = some (some (.value (.table entries))) := by
  have hends : Ends [] := by
    rintro _ ⟨⟩
  have hread := readExp_serialize (.table entries) hv ht.1 ht.2 hends
  rw [List.append_nil] at hread
  rw [Lua.load, hread]

theorem tonumber_tostring {a : Scalar} (hv : a.Valid) (ht : (Value.scalar a).Travels depth)
    (hfits : Getter.getNumber.Fits (.scalar a)) : tonumber (tostring a) = some a := by
  cases a with
  | string s => exact hfits.elim
  | boolean b => exact hfits.elim
  | float f => exact ht
  | integer i =>
    obtain ⟨hlo, hhi⟩ := hv
    by_cases hneg : i < 0
    · have hread := tonumber_integer true i.natAbs (by
        simp only [minInteger, maxInteger, if_true] at *
        omega)
      have hi : -(i.natAbs : Int) = i := by omega
      rw [if_pos rfl, hi] at hread
      rw [tostring, integerText, decide_eq_true hneg]
      exact hread
    · have hread := tonumber_integer false i.natAbs (by
        simp only [minInteger, maxInteger, Bool.false_eq_true, if_false] at *
        omega)
      have hi : (i.natAbs : Int) = i := by omega
      rw [if_neg Bool.false_ne_true, hi] at hread
      rw [tostring, integerText, decide_eq_false hneg]
      exact hread

theorem boolean_text (b : Bool) : decide ((Value.scalar (.boolean b)).text = word "true") = b := by
  cases b <;> decide

/-- What the conversion of the text gives, where the value travels. -/
theorem run_fresh {g : Getter} {key : Text} {v : Value} (hconf : s.conf key = none)
    (henv : s.env key = some v.text) (hv : v.Valid) (hfits : g.Fits v)
    (ht : g ≠ .get → v.Travels L.depth) :
    ((Call.mk g key).run L s).1 = some (some (g.form v)) := by
  cases g with
  | get =>
    change some (s.get key).1 = _
    rw [Service.get, getAs_fresh hconf henv]
    rfl
  | getBoolean =>
    change some (s.getBoolean key).1 = _
    rw [Service.getBoolean, getAs_fresh hconf henv]
    cases v with
    | table entries => exact hfits.elim
    | scalar a =>
      cases a with
      | boolean b => exact congrArg (fun b => some (some (Form.boolean b))) (boolean_text b)
      | string s => exact hfits.elim
      | integer i => exact hfits.elim
      | float f => exact hfits.elim
  | getNumber =>
    change some (s.getNumber key).1 = _
    rw [Service.getNumber, getAs_fresh hconf henv]
    cases v with
    | table entries => exact hfits.elim
    | scalar a =>
      have hread := tonumber_tostring hv (ht (by decide)) hfits
      simp only [Value.text, hread]
      rfl
  | getTable =>
    change (s.getTable L key).1 = _
    cases v with
    | scalar a => cases a <;> exact hfits.elim
    | table entries => exact getTable_text (.inr ⟨hconf, henv⟩) (load_table hv (ht (by decide)))

theorem run_cached {g : Getter} {key : Text} {x : Form ω} (hg : g ≠ .getTable)
    (hconf : s.conf key = some x) : ((Call.mk g key).run L s).1 = some (some x) := by
  cases g with
  | getTable => exact absurd rfl hg
  | get => exact congrArg (fun r => some r.1) (getAs_cached hconf)
  | getBoolean => exact congrArg (fun r => some r.1) (getAs_cached hconf)
  | getNumber => exact congrArg (fun r => some r.1) (getAs_cached hconf)

theorem right_of_clean (h : (service L config).Reaches anyStep s) (c : Call)
    (hc : Clean L config s c) : Right config c (c.run L s).1 := by
  intro v hmem hfits
  have henv := env_text h _ hmem
  have hv := config.valid _ hmem
  obtain ⟨g, key⟩ := c
  rcases hc v hmem hfits with hform | ⟨hnone | ⟨htable, htext⟩, ht⟩
  · by_cases hg : g = .getTable
    · subst hg
      cases v with
      | scalar a => cases a <;> exact hfits.elim
      | table entries => exact congrArg Prod.fst (getTable_cached hform)
    · exact run_cached hg hform
  · exact run_fresh hnone henv hv hfits ht
  · simp only at htable
    subst htable
    cases v with
    | scalar a => cases a <;> exact hfits.elim
    | table entries => exact getTable_text (.inl htext) (load_table hv (ht (by simp)))

theorem clean_of_right (h : (service L config).Reaches anyStep s) {c : Call}
    (hg : c.getter ≠ .getTable) (hr : Right config c (c.run L s).1) : Clean L config s c := by
  intro v hmem hfits
  have henv := env_text h _ hmem
  have hanswer := hr v hmem hfits
  obtain ⟨g, key⟩ := c
  cases hconf : s.conf key with
  | some x =>
    rw [run_cached hg hconf] at hanswer
    exact .inl (Option.some.inj hanswer)
  | none =>
    refine .inr ⟨.inl rfl, fun hget => ?_⟩
    cases v with
    | table entries =>
      cases g with
      | get => exact absurd rfl hget
      | getTable => exact absurd rfl hg
      | getBoolean => exact hfits.elim
      | getNumber => exact hfits.elim
    | scalar a =>
      cases a with
      | string s => trivial
      | boolean b => trivial
      | integer i => trivial
      | float f =>
        cases g with
        | get => exact absurd rfl hget
        | getBoolean => exact hfits.elim
        | getTable => exact absurd rfl hg
        | getNumber =>
          change some (s.getNumber key).1 = _ at hanswer
          rw [Service.getNumber, getAs_fresh hconf henv] at hanswer
          obtain ⟨a, ha, hform⟩ := Option.map_eq_some_iff.mp (Option.some.inj hanswer)
          cases hform
          exact ha

theorem getAs_store (convert : Text → Option (Form ω)) (key : Text) (s : Service ω) :
    (s.getAs convert key).2.conf key = (s.getAs convert key).1 ∧
      ∀ k ≠ key, (s.getAs convert key).2.conf k = s.conf k := by
  rw [Service.getAs]
  split
  · next h => exact ⟨h, fun _ _ => rfl⟩
  · next h =>
    split
    · exact ⟨h, fun _ _ => rfl⟩
    · exact ⟨rfl, fun k hk => Function.update_of_ne hk _ _⟩

theorem getTable_store (key : Text) (s : Service ω) :
    (∀ x, (s.getTable L key).1 = some x → (s.getTable L key).2.conf key = x) ∧
      ∀ k ≠ key, (s.getTable L key).2.conf k = s.conf k := by
  obtain ⟨hself, hother⟩ := getAs_store (fun value => some (.string value)) key s
  have hget : s.get key = s.getAs (fun value => some (.string value)) key := rfl
  rw [← hget] at hself hother
  rw [Service.getTable]
  generalize s.get key = r at hself hother
  obtain ⟨x, s'⟩ := r
  simp only at hself hother ⊢
  split
  · split
    · refine ⟨?_, hother⟩
      rintro _ ⟨⟩
    · refine ⟨?_, fun k hk => ?_⟩
      · rintro _ ⟨⟩
        exact Function.update_self _ _ _
      · rw [← hother k hk]
        exact Function.update_of_ne hk _ _
  · refine ⟨?_, hother⟩
    rintro _ ⟨⟩
    exact hself

/-- A call keeps what it answers, and leaves the other keys alone. -/
theorem run_store (c : Call) (s : Service ω) :
    (∀ x, (c.run L s).1 = some x → (c.run L s).2.conf c.key = x) ∧
      ∀ k ≠ c.key, (c.run L s).2.conf k = s.conf k := by
  obtain ⟨g, key⟩ := c
  have has (convert : Text → Option (Form ω)) :
      (∀ x, some (s.getAs convert key).1 = some x → (s.getAs convert key).2.conf key = x) ∧
        ∀ k ≠ key, (s.getAs convert key).2.conf k = s.conf k := by
    obtain ⟨hself, hother⟩ := getAs_store convert key s
    exact ⟨fun x hx => hself.trans (Option.some.inj hx), hother⟩
  cases g with
  | get => exact has _
  | getBoolean => exact has _
  | getNumber => exact has _
  | getTable => exact getTable_store key s

/-- What is kept of a key is what its one getter gives. -/
def Kept (reader : Text → Getter) (config : AppConfig) (s : Service ω) : Prop :=
  ∀ e ∈ config.entries, s.conf e.1 = none ∨ s.conf e.1 = some ((reader e.1).form e.2)

section Readers

variable {reader : Text → Getter}

theorem Kept.clean (h : Kept reader config s) (ht : ∀ e ∈ config.entries, e.2.Travels L.depth)
    {c : Call} (hc : c.getter = reader c.key) : Clean L config s c := by
  intro v hmem _
  rw [hc]
  rcases h _ hmem with hnone | hform
  · exact .inr ⟨.inl hnone, fun _ => ht _ hmem⟩
  · exact .inl hform

theorem Kept.run (h : Kept reader config s) (hreach : (service L config).Reaches anyStep s)
    (hfits : ∀ e ∈ config.entries, (reader e.1).Fits e.2)
    (ht : ∀ e ∈ config.entries, e.2.Travels L.depth) {c : Call} (hc : c.getter = reader c.key) :
    Kept reader config (c.run L s).2 := by
  rintro ⟨k, v⟩ hmem
  obtain ⟨hself, hother⟩ := run_store (L := L) c s
  by_cases hk : k = c.key
  · subst hk
    have hright := right_of_clean hreach c (h.clean ht hc) v hmem (hc ▸ hfits _ hmem)
    rw [hc] at hright
    exact .inr (hself _ hright)
  · rw [hother k hk]
    exact h _ hmem

/-- Calls are right where each key has one getter. -/
theorem right_of_reader
    (h : (service L config).Reaches (fun _ c => c.getter = reader c.key) s)
    (hfits : ∀ e ∈ config.entries, (reader e.1).Fits e.2)
    (ht : ∀ e ∈ config.entries, e.2.Travels L.depth) {c : Call} (hc : c.getter = reader c.key) :
    Right config c (c.run L s).1 := by
  have hreach {s : Service ω}
      (hs : (service L config).Reaches (fun _ c => c.getter = reader c.key) s) :
      (service L config).Reaches anyStep s := hs.mono fun _ _ _ => trivial
  have hkept : Kept reader config s := by
    refine h.invariant_with (I := (service L config).Reaches anyStep)
      (J := Kept reader config) (fun _ => hreach) ?_ ?_
    · rintro s ⟨_, _, _, _, _, _, _, hnone⟩ e _
      exact .inl (hnone e.1)
    · rintro s c t hs hkept hc ⟨⟩
      exact hkept.run hs hfits ht hc
  exact right_of_clean (hreach h) c (hkept.clean ht hc)

end Readers

/-- Whatever has been called before, a call is right if its key is clean, and for other values than
tables only then. -/
theorem getters_right (h : (service L config).Reaches anyStep s) (c : Call) :
    (Clean L config s c → Right config c (c.run L s).1) ∧
      (c.getter ≠ .getTable → Right config c (c.run L s).1 → Clean L config s c) :=
  ⟨right_of_clean h c, clean_of_right h⟩

/-- A flag, a price, and limits by name and by size. -/
def shop : AppConfig where
  entries := [(word "flag", .scalar (.boolean false)), (word "price", .scalar (.float 0.5)),
    (word "limits", .table [(.string (word "max"), .scalar (.integer 3)),
      (.float 0.5, .scalar (.string (word "half")))])]
  nodup := by decide
  valid := by
    intro e he
    simp only [List.mem_cons, List.not_mem_nil, or_false] at he
    rcases he with rfl | rfl | rfl
    · trivial
    · trivial
    · refine ⟨by decide +kernel, ⟨trivial, rfl, ?_⟩, ⟨trivial, by decide +kernel, trivial⟩, trivial⟩
      exact ⟨by decide, by decide⟩
  keys := by decide
  texts := by decide +kernel

/-- The parser goes two hundred levels deep. -/
def constants : Lua Empty := ⟨200, fun _ => none⟩

/-- The service that has the shop. -/
def shopService : Service Empty where
  env := Function.update (Function.update (Function.update (Function.update
    (Function.update (fun _ => none) (word "app_config_path") (some []))
    (word "app_config_loaded") (some (word "true"))) (word "flag") (some (word "false")))
    (word "price") (some (word "0.5"))) (word "limits")
    (some (word "\x7b[\"max\"]=3,[0.5]=\"half\",\x7d"))
  conf _ := none

theorem shopService_init : (service constants shop).init shopService := by
  refine ⟨fun _ => some shop.entries,
    Function.update (fun _ => none) (word "app_config_path") (some []), [], ?_, ?_, rfl, ?_,
    fun _ => rfl⟩
  · decide
  · decide
  · rfl

/-- The text of the limits is read, then the price. -/
def shopCalls : List Call := [⟨.get, word "limits"⟩, ⟨.getNumber, word "price"⟩]

theorem getters_right_shop :
    ∃ s : Service Empty, (service constants shop).Reaches anyStep s ∧
      s.conf (word "limits") = some (.string (word "\x7b[\"max\"]=3,[0.5]=\"half\",\x7d")) ∧
      Right shop ⟨.getTable, word "limits"⟩
        (Call.run constants ⟨.getTable, word "limits"⟩ s).1 := by
  have hreach := (service constants shop).run_reaches anyStep shopCalls shopService_init rfl
  refine ⟨_, hreach, rfl, (getters_right hreach ⟨.getTable, word "limits"⟩).1 ?_⟩
  intro v hmem hfits
  simp only [shop, List.mem_cons, List.not_mem_nil, or_false] at hmem
  rcases hmem with hmem | hmem | hmem
  · cases hmem
  · cases hmem
  · cases hmem
    have hmax : (3 : Int) ≠ minInteger := by decide
    have hhalf : tonumber (floatText 0.5) = some (.float 0.5) := by decide +kernel
    exact .inr ⟨.inr ⟨rfl, rfl⟩, fun _ =>
      ⟨⟨⟨trivial, hmax⟩, ⟨hhalf, trivial⟩, trivial⟩, by decide +kernel⟩⟩

/-- Once the text has been read, the flag is no boolean. -/
theorem get_then_boolean : ¬ ∀ (s : Service Empty), (service constants shop).Reaches anyStep s →
    ∀ c, Right shop c (Call.run constants c s).1 := by
  intro h
  have hreach : (service constants shop).Reaches anyStep
      (Call.run constants ⟨.get, word "flag"⟩ shopService).2 :=
    .step (.init shopService_init) trivial rfl
  have hright := h _ hreach ⟨.getBoolean, word "flag"⟩ (.scalar (.boolean false))
    List.mem_cons_self trivial
  cases hright

end Config
end Skyext
