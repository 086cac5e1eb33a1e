namespace Abacus.Unicode

-- The characters with the Unicode property White_Space.
def whiteSpace : List Char :=
  ['\t', '\n', '\u000B', '\u000C', '\r', ' ', '\u0085', '\u00A0', '\u1680', '\u2000', '\u2001',
   '\u2002', '\u2003', '\u2004', '\u2005', '\u2006', '\u2007', '\u2008', '\u2009', '\u200A',
   '\u2028', '\u2029', '\u202F', '\u205F', '\u3000']

def isWhiteSpace (c : Char) : Bool :=
  whiteSpace.contains c

-- The text without the white space at its two ends.
def trim (s : List Char) : List Char :=
  ((s.dropWhile isWhiteSpace).reverse.dropWhile isWhiteSpace).reverse

theorem isWhiteSpace_eq_false_of_isDigit {c : Char} (h : c.isDigit) : isWhiteSpace c = false := by
  simp only [Char.isDigit, Bool.and_eq_true, decide_eq_true_eq, ge_iff_le,
    UInt32.le_iff_toNat_le] at h
  refine Bool.eq_false_iff.2 fun hw => ?_
  have hc : c ∈ whiteSpace := by simpa [isWhiteSpace] using hw
  have bound := List.all_eq_true.1
    (by decide : whiteSpace.all fun w => w.val.toNat < 48 ∨ 57 < w.val.toNat) c hc
  simp only [decide_eq_true_eq] at bound
  have low : '0'.val.toNat = 48 := rfl
  have high : '9'.val.toNat = 57 := rfl
  omega

end Abacus.Unicode
