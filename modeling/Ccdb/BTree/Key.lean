import Ccdb.Storage.Tuple
import Mathlib.Data.List.Lex
import Mathlib.Order.Compare
import Mathlib.Algebra.Order.Ring.Int

/-!
# Ccdb — index keys

`encode_key`, `decode_key` and `compare_keys` of `btree.rs`. Keys are
compared through the value they decode to. `keyRank` maps a key to a list
of integers ordered lexicographically such that `compare_keys` is exactly
the comparison of ranks; it is undefined on the keys `compare_keys` cannot
order (wrong length, INTERVAL, NaN).

Main results:

* `compareKeys_compares` — on ranked keys `compare_keys` succeeds and
  compares the ranks.
* `keyRank_encodeKey` — every encoded value of a fixed-width integer type
  is ranked, by the integer itself.
-/

namespace Ccdb.BTree

open Ccdb

/-- `encode_key`. -/
def encodeKey : Value → Bytes
  | .int n => i32Bytes n
  | .varchar s => stringBytes s
  | .bool b => [if b then 1 else 0]
  | .double bits => toLe 8 bits.toNat
  | .timestamp n => i64Bytes n
  | .date n => i32Bytes n
  | .time n => i64Bytes n
  | .interval months days micros => i32Bytes months ++ i32Bytes days ++ i64Bytes micros
  | .null => []

def i32FromBytes (bs : Bytes) : Int32 := (UInt32.ofNat (fromLe bs)).toInt32
def i64FromBytes (bs : Bytes) : Int64 := (UInt64.ofNat (fromLe bs)).toInt64

/-- `decode_key`. -/
def decodeKey (bytes : Bytes) : DataType → Except DbError Value
  | .int =>
    if bytes.length ≠ 4 then .error (.bail s!"INT key wrong length: {bytes.length}")
    else .ok (.int (i32FromBytes bytes))
  | .varchar =>
    match String.fromUTF8? ⟨bytes.toArray⟩ with
    | some s => .ok (.varchar s)
    | none => .error (.bail "invalid utf-8 sequence")
  | .bool =>
    match bytes with
    | [] => .error (.bail "BOOL key empty")
    | b :: _ => .ok (.bool (b != 0))
  | .double =>
    if bytes.length ≠ 8 then .error (.bail s!"DOUBLE key wrong length: {bytes.length}")
    else .ok (.double (UInt64.ofNat (fromLe bytes)))
  | .timestamp =>
    if bytes.length ≠ 8 then .error (.bail s!"TIMESTAMP key wrong length: {bytes.length}")
    else .ok (.timestamp (i64FromBytes bytes))
  | .date =>
    if bytes.length ≠ 4 then .error (.bail s!"DATE key wrong length: {bytes.length}")
    else .ok (.date (i32FromBytes bytes))
  | .time =>
    if bytes.length ≠ 8 then .error (.bail s!"TIME key wrong length: {bytes.length}")
    else .ok (.time (i64FromBytes bytes))
  | .interval =>
    if bytes.length ≠ 16 then .error (.bail s!"INTERVAL key wrong length: {bytes.length}")
    else
      .ok (.interval (i32FromBytes (bytes.take 4)) (i32FromBytes ((bytes.drop 4).take 4))
        (i64FromBytes (bytes.drop 8)))

/-! ## Comparison -/

/-- The position of a double in `partial_cmp`'s order: sign and magnitude
as an integer, both zeros at 0; NaN has none. -/
def f64Rank (bits : UInt64) : Option Int :=
  let magnitude : Nat := bits.toNat % 2 ^ 63
  if 0x7FF0000000000000 < magnitude then none
  else if bits.toNat < 2 ^ 63 then some (magnitude : Int)
  else some (-(magnitude : Int))

/-- `x.partial_cmp(y).unwrap_or(Equal)` on `f64`. -/
def f64Cmp (x y : UInt64) : Ordering :=
  match f64Rank x, f64Rank y with
  | some a, some b => cmp a b
  | _, _ => .eq

/-- `String::cmp`: lexicographic on the UTF-8 bytes. -/
def cmpBytes : Bytes → Bytes → Ordering
  | [], [] => .eq
  | [], _ :: _ => .lt
  | _ :: _, [] => .gt
  | a :: as, b :: bs =>
    match cmp a.toNat b.toNat with
    | .eq => cmpBytes as bs
    | o => o

def boolRank (b : Bool) : Int := if b then 1 else 0

/-- `compare_keys`. The INTERVAL pair has no arm of its own and falls
through to the type-mismatch error. -/
def compareValues : Value → Value → Except DbError Ordering
  | .null, .null => .ok .eq
  | .null, _ => .ok .gt
  | _, .null => .ok .lt
  | .int x, .int y => .ok (cmp x.toInt y.toInt)
  | .varchar x, .varchar y => .ok (cmpBytes (stringBytes x) (stringBytes y))
  | .bool x, .bool y => .ok (cmp (boolRank x) (boolRank y))
  | .double x, .double y => .ok (f64Cmp x y)
  | .timestamp x, .timestamp y => .ok (cmp x.toInt y.toInt)
  | .date x, .date y => .ok (cmp x.toInt y.toInt)
  | .time x, .time y => .ok (cmp x.toInt y.toInt)
  | _, _ => .error (.bail "type mismatch in key comparison")

def compareKeys (a b : Bytes) (ty : DataType) : Except DbError Ordering := do
  let av ← decodeKey a ty
  let bv ← decodeKey b ty
  compareValues av bv

/-! ## Ranks -/

def bytesRank (s : Bytes) : List Int := s.map fun b => (b.toNat : Int)

/-- The rank of a value inside its own type. -/
def valueRank : Value → Option (List Int)
  | .int n => some [n.toInt]
  | .varchar s => some (bytesRank (stringBytes s))
  | .bool b => some [boolRank b]
  | .double bits => (f64Rank bits).map fun r => [r]
  | .timestamp n => some [n.toInt]
  | .date n => some [n.toInt]
  | .time n => some [n.toInt]
  | .interval .. => none
  | .null => none

/-- The rank of an index key of type `ty`. -/
def keyRank (ty : DataType) (key : Bytes) : Option (List Int) :=
  match decodeKey key ty with
  | .ok v => valueRank v
  | .error _ => none

theorem compares_singleton (x y : Int) : (cmp x y).Compares [x] [y] := by
  rcases lt_trichotomy x y with h | rfl | h
  · rw [(cmp_eq_lt_iff x y).2 h]
    exact List.Lex.rel h
  · rw [cmp_self_eq_eq]
    rfl
  · rw [(cmp_eq_gt_iff x y).2 h]
    exact List.Lex.rel h

theorem cmpBytes_compares : ∀ a b : Bytes, (cmpBytes a b).Compares (bytesRank a) (bytesRank b)
  | [], [] => rfl
  | [], _ :: _ => List.Lex.nil
  | _ :: _, [] => List.Lex.nil
  | a :: as, b :: bs => by
    have ih := cmpBytes_compares as bs
    simp only [cmpBytes, bytesRank, List.map_cons] at ih ⊢
    rcases lt_trichotomy a.toNat b.toNat with h | h | h
    · rw [(cmp_eq_lt_iff _ _).2 h]
      exact List.Lex.rel (by exact_mod_cast h)
    · rw [(cmp_eq_eq_iff _ _).2 h]
      dsimp only
      rw [h]
      revert ih
      cases cmpBytes as bs with
      | lt => exact fun ih => List.Lex.cons ih
      | eq => exact fun ih => congrArg _ ih
      | gt => exact fun ih => List.Lex.cons ih
    · rw [(cmp_eq_gt_iff _ _).2 h]
      exact List.Lex.rel (by exact_mod_cast h)

theorem decodeKey_dataType {key : Bytes} {ty : DataType} {v : Value}
    (h : decodeKey key ty = .ok v) : v.dataType = some ty := by
  cases ty <;> simp only [decodeKey] at h <;> split at h <;> cases h <;> rfl

theorem compareValues_compares {x y : Value} {ty : DataType} {rx ry : List Int}
    (hx : x.dataType = some ty) (hy : y.dataType = some ty)
    (hrx : valueRank x = some rx) (hry : valueRank y = some ry) :
    ∃ o, compareValues x y = .ok o ∧ o.Compares rx ry := by
  cases x <;> cases hx <;> cases y <;> cases hy <;>
    simp only [valueRank, Option.some.injEq, Option.map_eq_some_iff, reduceCtorEq] at hrx hry
  case varchar.refl.varchar.refl =>
    subst hrx hry
    exact ⟨_, rfl, cmpBytes_compares _ _⟩
  case double.refl.double.refl =>
    obtain ⟨a, ha, rfl⟩ := hrx
    obtain ⟨b, hb, rfl⟩ := hry
    refine ⟨_, rfl, ?_⟩
    simp only [f64Cmp, ha, hb]
    exact compares_singleton a b
  all_goals
    subst hrx hry
    exact ⟨_, rfl, compares_singleton _ _⟩

/-- **Key comparison is comparison of ranks.** -/
theorem compareKeys_compares {ty : DataType} {a b : Bytes} {ra rb : List Int}
    (ha : keyRank ty a = some ra) (hb : keyRank ty b = some rb) :
    ∃ o, compareKeys a b ty = .ok o ∧ o.Compares ra rb := by
  unfold keyRank at ha hb
  cases hav : decodeKey a ty with
  | error e => rw [hav] at ha; cases ha
  | ok av =>
    cases hbv : decodeKey b ty with
    | error e => rw [hbv] at hb; cases hb
    | ok bv =>
      rw [hav] at ha
      rw [hbv] at hb
      obtain ⟨o, ho, hcmp⟩ :=
        compareValues_compares (decodeKey_dataType hav) (decodeKey_dataType hbv) ha hb
      refine ⟨o, ?_, hcmp⟩
      simp only [compareKeys, hav, hbv]
      exact ho

/-! ## Fixed-width integer types -/

/-- The key types of constant width: INT, DATE, TIME, TIMESTAMP. -/
def fixedWidth : DataType → Option Nat
  | .int => some 4
  | .date => some 4
  | .time => some 8
  | .timestamp => some 8
  | _ => none

theorem i32FromBytes_i32Bytes (n : Int32) : i32FromBytes (i32Bytes n) = n := by
  have hlt := n.toUInt32.toNat_lt
  rw [i32FromBytes, i32Bytes, fromLe_toLe, Nat.mod_eq_of_lt (by omega)]
  simp

theorem i64FromBytes_i64Bytes (n : Int64) : i64FromBytes (i64Bytes n) = n := by
  have hlt := n.toUInt64.toNat_lt
  rw [i64FromBytes, i64Bytes, fromLe_toLe, Nat.mod_eq_of_lt (by omega)]
  simp

/-- Encoding a fixed-width value gives a key of that width that decodes back. -/
theorem decodeKey_encodeKey {v : Value} {ty : DataType} {w : Nat} (hv : v.dataType = some ty)
    (hw : fixedWidth ty = some w) :
    decodeKey (encodeKey v) ty = .ok v ∧ (encodeKey v).length = w := by
  cases v <;> cases hv <;> cases hw <;>
    simp [encodeKey, decodeKey, i32FromBytes_i32Bytes, i64FromBytes_i64Bytes] <;>
    simp [i32Bytes, i64Bytes]

theorem keyRank_encodeKey {v : Value} {ty : DataType} {w : Nat} (hv : v.dataType = some ty)
    (hw : fixedWidth ty = some w) : keyRank ty (encodeKey v) = valueRank v := by
  simp [keyRank, (decodeKey_encodeKey hv hw).1]

/-- Only keys of the right width are ranked. -/
theorem keyRank_length {key : Bytes} {ty : DataType} {w : Nat} (hw : fixedWidth ty = some w)
    (hk : (keyRank ty key).isSome) : key.length = w := by
  by_contra hne
  cases ty <;> cases hw <;> simp [keyRank, decodeKey, hne] at hk

theorem i32FromBytes_inj {a b : Bytes} (ha : a.length = 4) (hb : b.length = 4)
    (h : i32FromBytes a = i32FromBytes b) : a = b := by
  have hla := fromLe_lt a
  have hlb := fromLe_lt b
  rw [ha] at hla
  rw [hb] at hlb
  refine fromLe_inj (ha.trans hb.symm) ?_
  have hu : UInt32.ofNat (fromLe a) = UInt32.ofNat (fromLe b) := by
    have := congrArg Int32.toUInt32 h
    simpa [i32FromBytes] using this
  have hn := congrArg UInt32.toNat hu
  simp only [UInt32.toNat_ofNat'] at hn
  omega

theorem i64FromBytes_inj {a b : Bytes} (ha : a.length = 8) (hb : b.length = 8)
    (h : i64FromBytes a = i64FromBytes b) : a = b := by
  have hla := fromLe_lt a
  have hlb := fromLe_lt b
  rw [ha] at hla
  rw [hb] at hlb
  refine fromLe_inj (ha.trans hb.symm) ?_
  have hu : UInt64.ofNat (fromLe a) = UInt64.ofNat (fromLe b) := by
    have := congrArg Int64.toUInt64 h
    simpa [i64FromBytes] using this
  have hn := congrArg UInt64.toNat hu
  simp only [UInt64.toNat_ofNat'] at hn
  omega

/-- A fixed-width key is determined by its rank. -/
theorem keyRank_inj {ty : DataType} {w : Nat} (hw : fixedWidth ty = some w) {a b : Bytes}
    {r : List Int} (ha : keyRank ty a = some r) (hb : keyRank ty b = some r) : a = b := by
  have hka : a.length = w := keyRank_length hw (by simp [ha])
  have hkb : b.length = w := keyRank_length hw (by simp [hb])
  cases ty <;> cases hw <;>
    simp only [keyRank, decodeKey, hka, hkb, ne_eq, not_true_eq_false, if_false, valueRank,
      Option.some.injEq] at ha hb <;>
    rw [← hb] at ha <;> simp only [List.cons.injEq, and_true] at ha
  case int.refl => exact i32FromBytes_inj hka hkb (Int32.toInt_inj.1 ha)
  case timestamp.refl => exact i64FromBytes_inj hka hkb (Int64.toInt_inj.1 ha)
  case date.refl => exact i32FromBytes_inj hka hkb (Int32.toInt_inj.1 ha)
  case time.refl => exact i64FromBytes_inj hka hkb (Int64.toInt_inj.1 ha)

end Ccdb.BTree
