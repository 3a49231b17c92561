import P4Bricks.Lookup.LongestPrefix
import P4Bricks.MatchKeys.FieldMatches
import P4Bricks.MatchUnit.Records
/-!
# Prefixes of fields that are not whole bytes

The check of the parameters bounds a prefix by the width of its field, and the comparison counts it
from the first bit of the first byte. Where the first byte is padded, the last bits of the prefix
are not compared, as many as the padding has (`prefix_matches_iff`).
-/

namespace P4Bricks

namespace MatchKeys

open Lookup MatchUnit

/-- The bits that pad the first byte of a field. -/
def KeyField.padding (x : KeyField) : ℕ := 8 * x.nbytes - x.input.nbits

namespace MatchKeyBuilder

/-! ## The bits that are not compared -/

/-- **The bits of the prefix that are not compared** agree: the last ones, as many as the padding
has. -/
def UnseenAgree (value : ℕ) (x : KeyField) (param : MatchKeyParam) : Prop :=
  let masked := value &&& bytesVal x.mask
  let wanted := bytesVal param.key &&& bytesVal x.mask
  let p := param.prefixLength.toNat
  masked / 2 ^ (x.input.nbits - p) % 2 ^ min x.padding p =
    wanted / 2 ^ (x.input.nbits - p) % 2 ^ min x.padding p

/-- Every field satisfies its own parameter, as the entry has it. -/
def EntrySatisfied (phv : Phv) (fields : List KeyField) (params : List MatchKeyParam) : Prop :=
  ∀ i < fields.length, Satisfied (fieldValue phv (fieldAt fields i)) (fieldAt fields i)
    (cutParam (fieldAt fields i) (paramAt params i))

/-- The bits that are not compared agree for every field that is a prefix. -/
def UnseenAllAgree (phv : Phv) (fields : List KeyField) (params : List MatchKeyParam) : Prop :=
  ∀ i < fields.length, (fieldAt fields i).input.mtype = .lpm →
    UnseenAgree (fieldValue phv (fieldAt fields i)) (fieldAt fields i)
      (cutParam (fieldAt fields i) (paramAt params i))

/-- The fields of the packet have no bits above their widths. -/
def Narrow (phv : Phv) (fields : List KeyField) : Prop :=
  ∀ x ∈ fields, fieldValue phv x < 2 ^ x.input.nbits

section
variable {kind : MatchUnitType} {fields : List KeyField} {params : List MatchKeyParam} {phv : Phv}
  {x : KeyField} {param : MatchKeyParam}

/-- The first bits of numbers of `n` bits, behind `pad` bits that are zero. -/
theorem div_two_pow_eq_iff {a b n p : ℕ} (pad : ℕ) (ha : a < 2 ^ n) (hb : b < 2 ^ n) (hp : p ≤ n) :
    a / 2 ^ (n - p) = b / 2 ^ (n - p) ↔
      a / 2 ^ (n + pad - p) = b / 2 ^ (n + pad - p) ∧
        a / 2 ^ (n - p) % 2 ^ min pad p = b / 2 ^ (n - p) % 2 ^ min pad p := by
  refine ⟨fun heq => ⟨?_, by rw [heq]⟩, fun ⟨hcoarse, hfine⟩ => ?_⟩
  · rw [(by omega : n + pad - p = n - p + pad), pow_add, ← Nat.div_div_eq_div_mul,
      ← Nat.div_div_eq_div_mul, heq]
  · rcases Nat.le_total pad p with hle | hle
    · rw [(by omega : n + pad - p = n - p + pad), pow_add, ← Nat.div_div_eq_div_mul,
        ← Nat.div_div_eq_div_mul] at hcoarse
      rw [Nat.min_eq_left hle] at hfine
      rw [← Nat.div_add_mod (a / 2 ^ (n - p)) (2 ^ pad), hcoarse, hfine, Nat.div_add_mod]
    · -- no bit of the prefix is compared
      have hlt : ∀ {c : ℕ}, c < 2 ^ n → c / 2 ^ (n - p) < 2 ^ p := by
        intro c hc
        rw [Nat.div_lt_iff_lt_mul (by positivity), ← pow_add, (by omega : p + (n - p) = n)]
        exact hc
      rwa [Nat.min_eq_right hle, Nat.mod_eq_of_lt (hlt ha), Nat.mod_eq_of_lt (hlt hb)] at hfine

/-- **A prefix is satisfied** if what is compared of it is, and the rest agrees. -/
theorem satisfied_lpm_iff (hsane : paramSane x.input param = true) (hlpm : x.input.mtype = .lpm)
    (hnarrow : fieldValue phv x < 2 ^ x.input.nbits) :
    Satisfied (fieldValue phv x) x (cutParam x param) ↔
      Compared phv x param ∧ UnseenAgree (fieldValue phv x) x (cutParam x param) := by
  obtain ⟨htype, hlen, hprefix, -, -⟩ := paramSane_iff.mp hsane
  obtain ⟨-, hle⟩ := hprefix (htype.trans hlpm)
  have hvalue : fieldValue phv x &&& bytesVal x.mask < 2 ^ x.input.nbits :=
    Nat.and_le_left.trans_lt hnarrow
  have hkey : bytesVal (cutParam x param).key &&& bytesVal x.mask < 2 ^ x.input.nbits :=
    Nat.and_le_left.trans_lt (bytesVal_cutTop_lt hlen)
  have hpad : 8 * x.nbytes = x.input.nbits + x.padding := by
    rw [KeyField.padding, KeyField.nbytes, nbitsToNbytes]
    omega
  have hp : (cutParam x param).prefixLength.toNat ≤ x.input.nbits := by
    change param.prefixLength.toNat ≤ x.input.nbits
    omega
  have hsplit := div_two_pow_eq_iff x.padding hvalue hkey hp
  rw [Satisfied, Compared, SatisfiedIn, SatisfiedIn, hlpm, hpad]
  exact hsplit

/-- The fields of a packet satisfy their parameters where they do in what is compared and in the
bits that are not. -/
theorem entrySatisfied_iff (hsane : ∀ i < fields.length,
      paramSane (fieldAt fields i).input (paramAt params i) = true) (hnarrow : Narrow phv fields) :
    EntrySatisfied phv fields params ↔
      AllCompared phv fields params ∧ UnseenAllAgree phv fields params := by
  rw [AllCompared, EntrySatisfied, UnseenAllAgree, ← forall₂_and]
  refine forall₂_congr fun i hi => ?_
  by_cases hlpm : (fieldAt fields i).input.mtype = .lpm
  · rw [satisfied_lpm_iff (hsane i hi) hlpm (hnarrow _ (fieldAt_mem hi))]
    exact and_congr_right fun _ => ⟨fun h _ => h, fun h => h hlpm⟩
  · -- only the bits of a prefix are counted from the front
    have hwidth : Compared phv (fieldAt fields i) (paramAt params i) ↔
        Satisfied (fieldValue phv (fieldAt fields i)) (fieldAt fields i)
          (cutParam (fieldAt fields i) (paramAt params i)) := satisfiedIn_congr hlpm
    exact ⟨fun h => ⟨hwidth.mpr h, fun hl => absurd hl hlpm⟩, fun h => hwidth.mp h.1⟩

/-- **Every field satisfies its parameter** exactly when the keys match and the bits of the prefix
that are not compared agree. -/
theorem prefix_matches_iff (hfits : Fits kind fields) (hplain : RangesUnmasked fields)
    (hcheck : (ofFields fields).matchParamsSanityCheck params = true)
    (hphv : CarriesAll phv fields) (hnarrow : Narrow phv fields) (priority : ℤ) :
    EntrySatisfied phv fields params ↔
      KeyMatches kind (ofFields fields).nbytesKey ((ofFields fields).packetKey phv)
          (((ofFields fields).toKeyBuilder (UnitKey kind)).matchParamsToEntry params priority) ∧
        UnseenAllAgree phv fields params := by
  have hsane := ((built_ofFields hfits.sound).matchParamsSanityCheck_iff.mp hcheck).2
  rw [keyMatches_iff hfits hplain hcheck hphv, entrySatisfied_iff hsane hnarrow]

/-- A field of whole bytes has no such bits. -/
theorem unseenAllAgree_of_bytes (hbytes : ∀ x ∈ fields, x.input.mtype = .lpm → x.padding = 0) :
    UnseenAllAgree phv fields params := by
  intro i hi hlpm
  have hpad := hbytes _ (fieldAt_mem hi) hlpm
  simp only [UnseenAgree, hpad, Nat.zero_min, pow_zero, Nat.mod_one]

/-- A prefix of ten bits, in a field of twelve. -/
def paddedFields : List KeyField := [.field 0 0 12 .lpm]

def paddedParams : List MatchKeyParam := [⟨.lpm, [0x0a, 0x80], [], 10⟩]

/-- The packet has `0xabc`, of which the six bits that are compared are those of `0xa80`. -/
theorem twoHeaders_unseen :
    KeyMatches .lpm (ofFields paddedFields).nbytesKey ((ofFields paddedFields).packetKey twoHeaders)
        (((ofFields paddedFields).toKeyBuilder LPMMatchKey).matchParamsToEntry paddedParams 0) ∧
      ¬EntrySatisfied twoHeaders paddedFields paddedParams := by
  have hfits : Fits .lpm paddedFields :=
    ⟨by decide, by simp [paddedFields, KeyField.input], by decide⟩
  have hphv : CarriesAll twoHeaders paddedFields := by
    intro x hx
    obtain rfl := List.mem_singleton.mp hx
    exact ⟨_, rfl, fun _ => ⟨_, rfl, rfl, rfl⟩⟩
  have hnarrow : Narrow twoHeaders paddedFields := by
    intro x hx
    obtain rfl := List.mem_singleton.mp hx
    decide
  have hcheck : (ofFields paddedFields).matchParamsSanityCheck paddedParams = true := by decide
  have hiff := prefix_matches_iff hfits (by decide) hcheck hphv hnarrow 0
  refine ⟨by unfold KeyMatches; decide, fun hall => ?_⟩
  have hagree := (hiff.mp hall).2 0 (by decide) rfl
  have hlast : (0xabc / 4) % 16 = (0xa80 / 4) % 16 := hagree
  omega

end

end MatchKeyBuilder

end MatchKeys

end P4Bricks
