namespace CoilHub

-- A coil is one register of a heat pump, known by a 16 bit number.
abbrev Address := UInt16

namespace Address

theorem lt_trichotomy (a b : Address) : a < b ∨ a = b ∨ b < a := by
  simp only [UInt16.lt_iff_toNat_lt, ← UInt16.toNat_inj]
  omega

theorem lt_trans {a b c : Address} (hab : a < b) (hbc : b < c) : a < c := by
  simp only [UInt16.lt_iff_toNat_lt] at *
  omega

theorem lt_irrefl (a : Address) : ¬ a < a := by
  simp only [UInt16.lt_iff_toNat_lt]
  omega

end Address

end CoilHub
