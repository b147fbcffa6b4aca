import Ccdb.BTree.Key
import Ccdb.Storage.TupleCodec

/-!
# Ccdb — keys of values

A value of any type is read back from its own key, so keys of one type compare as
the values do.

Main results:

* `decodeKey_encodeKey_self` — `decode_key` after `encode_key`.
* `compareValues_rank` — the order on the values of a type other than INTERVAL.
-/

namespace Ccdb.BTree

/-- A value read back from its own key. -/
theorem decodeKey_encodeKey_self {v : Value} {ty : DataType} (hv : v.dataType = some ty) :
    decodeKey (encodeKey v) ty = .ok v := by
  cases v <;> cases hv
  case varchar s =>
    have hutf : String.fromUTF8? ⟨(stringBytes s).toArray⟩ = some s := by
      have hread := TupleCodec.fromUtf8_stringBytes s
      unfold TupleCodec.fromUtf8 at hread
      cases hs : String.fromUTF8? ⟨(stringBytes s).toArray⟩ with
      | none =>
        rw [hs] at hread
        cases hread
      | some s' =>
        rw [hs] at hread
        rw [Except.ok.inj hread]
    simp only [encodeKey, decodeKey, hutf]
  case bool b => cases b <;> rfl
  case double bits =>
    have hlt := bits.toNat_lt
    simp only [encodeKey, decodeKey, toLe_length, ne_eq, not_true_eq_false, if_false, fromLe_toLe]
    rw [Nat.mod_eq_of_lt (by omega)]
    simp
  case interval months days micros =>
    have hmonths : (i32Bytes months).length = 4 := by simp [i32Bytes]
    have hdays : (i32Bytes days).length = 4 := by simp [i32Bytes]
    have hmicros : (i64Bytes micros).length = 8 := by simp [i64Bytes]
    have htail : (i32Bytes months ++ i32Bytes days ++ i64Bytes micros).drop 4 =
        i32Bytes days ++ i64Bytes micros := by
      rw [List.append_assoc, List.drop_left' hmonths]
    have hlast : (i32Bytes months ++ i32Bytes days ++ i64Bytes micros).drop 8 = i64Bytes micros :=
      List.drop_left' (by simp [hmonths, hdays])
    have hhead : (i32Bytes months ++ i32Bytes days ++ i64Bytes micros).take 4 = i32Bytes months := by
      rw [List.append_assoc, List.take_left' hmonths]
    simp only [encodeKey, decodeKey, htail, hlast, hhead, List.take_left' hdays,
      i32FromBytes_i32Bytes, i64FromBytes_i64Bytes]
    simp [hmonths, hdays, hmicros]
  all_goals exact (decodeKey_encodeKey rfl rfl).1

/-- Two values of one type, compared: by rank where both have one, and otherwise
as equal. -/
theorem compareValues_rank {ty : DataType} {v w : Value} (hty : ty ≠ .interval)
    (hv : v.dataType = some ty) (hw : w.dataType = some ty) :
    ∃ o, compareValues v w = .ok o ∧
      (∀ rv rw, valueRank v = some rv → valueRank w = some rw → o.Compares rv rw) ∧
      (valueRank v = none ∨ valueRank w = none → o = .eq) := by
  cases hrv : valueRank v with
  | some rv =>
    cases hrw : valueRank w with
    | some rw =>
      obtain ⟨o, ho, hcmp⟩ := compareValues_compares hv hw hrv hrw
      exact ⟨o, ho, fun _ _ hx hy => Option.some.inj hx ▸ Option.some.inj hy ▸ hcmp, by simp⟩
    | none =>
      cases w <;> cases hw <;> simp [valueRank] at hrw hty
      cases v <;> cases hv
      exact ⟨.eq, by simp [compareValues, f64Cmp, hrw], by simp, by simp⟩
  | none =>
    cases v <;> cases hv <;> simp [valueRank] at hrv hty
    cases w <;> cases hw
    exact ⟨.eq, by simp [compareValues, f64Cmp, hrv], by simp, by simp⟩

/-- Keys of one type compare as the values do. -/
theorem compareKeys_self {ty : DataType} {v w : Value} (hv : v.dataType = some ty)
    (hw : w.dataType = some ty) :
    compareKeys (encodeKey v) (encodeKey w) ty = compareValues v w := by
  rw [compareKeys, decodeKey_encodeKey_self hv, decodeKey_encodeKey_self hw]
  rfl

end Ccdb.BTree
