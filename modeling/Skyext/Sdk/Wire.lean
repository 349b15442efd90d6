import Skyext.Sdk.Struct

namespace Skyext
set_option autoImplicit true

namespace Sdk

/-- What stands for a field in a message: a word of its header alone, or bytes of its data too. -/
inductive Part
  | inline (v : Nat)
  | data (d : Bytes)

def sized (d : Bytes) : Bytes := littleEndian 4 d.length ++ d

namespace Part

def word : Part → Nat
  | inline v => (v + 1) * 2
  | data _ => 0

def bytes : Part → Bytes
  | inline _ => []
  | data d => sized d

@[simp]
theorem word_data (d : Bytes) : (data d).word = 0 := rfl

theorem word_inline (v : Nat) : (inline v).word ≠ 0 := Nat.mul_ne_zero v.succ_ne_zero (by decide)

end Part

def integerPart (x : Int) : Part :=
  if small x then
    if (x % 4294967296).toNat < 0x7fff then .inline (x % 4294967296).toNat
    else .data (littleEndian 4 x)
  else .data (littleEndian 8 x)

/-- The items of an array of integers, behind the width that they all have. -/
def integersBytes (xs : List Int) : Bytes :=
  if xs = [] then [] else UInt8.ofNat (width xs) :: content xs

theorem arrayBytes_sized (xs : List Int) : arrayBytes xs = sized (integersBytes xs) := rfl

namespace SprotoInstance

section Wire

variable (sp : SprotoInstance) (wire : SprotoType → Value → Option Bytes)

def valueBytes (f : SprotoField) (target : Value) : Option Bytes :=
  match f.type with
  | .string => target.stringBytes f.extra
  | .struct => (sp.subtype f).bind fun st => wire st target
  | _ => none

def itemsBytes (f : SprotoField) (items : List Value) : Option Bytes :=
  match f.type with
  | .integer =>
    (items.mapM Value.integer?).map fun items => integersBytes (items.map Integer.value)
  | .boolean => some (items.map fun v => UInt8.ofNat v.booleanCode)
  | _ => (items.mapM (sp.valueBytes wire f)).map fun ds => ds.flatMap sized

def fieldPart (indata : Value) (f : SprotoField) : Option (Option Part) :=
  if indata.isPlain = false then none
  else if f.array then
    (sp.itemsBytes wire f ((indata.member f.name).elim [] Value.items)).map fun d => some (.data d)
  else
    match indata.member f.name with
    | none => some none
    | some target =>
      match f.type with
      | .integer => target.integer?.map fun v => some (integerPart v.value)
      | .boolean => some (some (.inline target.booleanCode))
      | _ => (sp.valueBytes wire f target).map fun d => some (.data d)

end Wire

end SprotoInstance

def gather (part : SprotoField → Option (Option Part)) :
    List SprotoField → Option (List (SprotoField × Part))
  | [] => some []
  | f :: fs => (part f).bind fun p =>
    (gather part fs).map fun ps => (p.map fun p => (f, p)).toList ++ ps

/-- The header of a message whose first tag may be this one. -/
def words (next : Nat) : List (SprotoField × Part) → List Nat
  | [] => []
  | (f, p) :: ps =>
    (if next < f.tag then [(f.tag - next - 1) * 2 + 1] else []) ++ p.word :: words (f.tag + 1) ps

def nextTag (next : Nat) (ps : List (SprotoField × Part)) : Nat :=
  ps.foldl (fun _ p => p.1.tag + 1) next

def wordsBytes (ws : List Nat) : Bytes := ws.flatMap fun w : Nat => littleEndian 2 w

def partsBytes (ps : List (SprotoField × Part)) : Bytes := ps.flatMap fun p => p.2.bytes

def message (ps : List (SprotoField × Part)) : Bytes :=
  littleEndian 2 (words 0 ps).length ++ wordsBytes (words 0 ps) ++ partsBytes ps

/-- A value as a message, where it goes so many levels deep at most. -/
def SprotoInstance.structBytes (sp : SprotoInstance) : Nat → SprotoType → Value → Option Bytes
  | 0, st, _ => if st.f = [] then some (message []) else none
  | level + 1, st, indata =>
    (gather (sp.fieldPart (sp.structBytes level) indata) st.f).map message

theorem words_append (next : Nat) (ps qs : List (SprotoField × Part)) :
    words next (ps ++ qs) = words next ps ++ words (nextTag next ps) qs := by
  induction ps generalizing next with
  | nil => rfl
  | cons p ps ih =>
    rw [List.cons_append, words, words, ih, List.append_assoc, List.cons_append]
    rfl

theorem nextTag_snoc (next : Nat) (ps : List (SprotoField × Part)) (f : SprotoField) (p : Part) :
    nextTag next (ps ++ [(f, p)]) = f.tag + 1 := by
  rw [nextTag, List.foldl_append]
  rfl

theorem wordsBytes_length (ws : List Nat) : (wordsBytes ws).length = 2 * ws.length := by
  induction ws with
  | nil => rfl
  | cons w ws ih =>
    rw [wordsBytes, List.flatMap_cons, List.length_append, littleEndian_length, ← wordsBytes, ih,
      List.length_cons]
    omega

theorem wordsBytes_snoc (ws : List Nat) (w : Nat) :
    wordsBytes (ws ++ [w]) = wordsBytes ws ++ littleEndian 2 w := by
  rw [wordsBytes, List.flatMap_append, List.flatMap_cons, List.flatMap_nil, List.append_nil]
  rfl

theorem partsBytes_snoc (ps : List (SprotoField × Part)) (f : SprotoField) (p : Part) :
    partsBytes (ps ++ [(f, p)]) = partsBytes ps ++ p.bytes := by
  rw [partsBytes, List.flatMap_append, List.flatMap_cons, List.flatMap_nil, List.append_nil]
  rfl

theorem message_length (ps : List (SprotoField × Part)) :
    (message ps).length = 2 + 2 * (words 0 ps).length + (partsBytes ps).length := by
  rw [message, List.length_append, List.length_append, littleEndian_length, wordsBytes_length]

theorem slots_skip (next : Nat) (f : SprotoField) (fs : List SprotoField) :
    slots next fs ≤ slots next (f :: fs) := by
  have hle : slots next fs ≤ slots (f.tag + 1) fs + 1 := by
    cases fs with
    | nil => exact Nat.zero_le _
    | cons g fs =>
      rw [slots, slots]
      split <;> split <;> omega
  rw [slots]
  split <;> omega

theorem words_snoc_length (ps : List (SprotoField × Part)) (f : SprotoField) (p : Part) :
    (words 0 (ps ++ [(f, p)])).length =
      (words 0 ps).length + if nextTag 0 ps < f.tag then 2 else 1 := by
  rw [words_append, List.length_append, words, words]
  split <;> rfl

end Sdk

end Skyext
