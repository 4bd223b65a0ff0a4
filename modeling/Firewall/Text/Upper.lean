import Firewall.Text.Basic

/-!
# Upper case

Upper-casing replaces each character by its full upper-case form in Unicode, which may take more
than one character: `ß` becomes `SS`. The forms stand in a table of runs of code points, since
neighbouring letters lie at the same distance from their capitals.
-/

namespace Firewall

/-- Every `step`-th code point from `first` to `last`. The upper-case form of each is the character
`offset` away from it, followed by the characters of `tail`. -/
structure UpperRun where
  first : Nat
  last : Nat
  step : Nat
  offset : Int
  tail : List Nat

namespace UpperRun

/-- Whether the code point `n` belongs to the run. -/
def covers (r : UpperRun) (n : Nat) : Bool :=
  r.first ≤ n && n ≤ r.last && (n - r.first) % r.step == 0

/-- The upper-case form of the code point `n` of the run. -/
def upper (r : UpperRun) (n : Nat) : Text := (((n : Int) + r.offset).toNat :: r.tail).map Char.ofNat

/-- The runs outside ASCII, in ascending order. -/
def table : List UpperRun :=
   [⟨0x00B5, 0x00B5, 1, 743, []⟩, ⟨0x00DF, 0x00DF, 1, -140, [0x0053]⟩,
    ⟨0x00E0, 0x00F6, 1, -32, []⟩, ⟨0x00F8, 0x00FE, 1, -32, []⟩, ⟨0x00FF, 0x00FF, 1, 121, []⟩,
    ⟨0x0101, 0x012F, 2, -1, []⟩, ⟨0x0131, 0x0131, 1, -232, []⟩, ⟨0x0133, 0x0137, 2, -1, []⟩,
    ⟨0x013A, 0x0148, 2, -1, []⟩, ⟨0x0149, 0x0149, 1, 371, [0x004E]⟩, ⟨0x014B, 0x0177, 2, -1, []⟩,
    ⟨0x017A, 0x017E, 2, -1, []⟩, ⟨0x017F, 0x017F, 1, -300, []⟩, ⟨0x0180, 0x0180, 1, 195, []⟩,
    ⟨0x0183, 0x0185, 2, -1, []⟩, ⟨0x0188, 0x0188, 1, -1, []⟩, ⟨0x018C, 0x018C, 1, -1, []⟩,
    ⟨0x0192, 0x0192, 1, -1, []⟩, ⟨0x0195, 0x0195, 1, 97, []⟩, ⟨0x0199, 0x0199, 1, -1, []⟩,
    ⟨0x019A, 0x019A, 1, 163, []⟩, ⟨0x019B, 0x019B, 1, 42561, []⟩, ⟨0x019E, 0x019E, 1, 130, []⟩,
    ⟨0x01A1, 0x01A5, 2, -1, []⟩, ⟨0x01A8, 0x01A8, 1, -1, []⟩, ⟨0x01AD, 0x01AD, 1, -1, []⟩,
    ⟨0x01B0, 0x01B0, 1, -1, []⟩, ⟨0x01B4, 0x01B6, 2, -1, []⟩, ⟨0x01B9, 0x01B9, 1, -1, []⟩,
    ⟨0x01BD, 0x01BD, 1, -1, []⟩, ⟨0x01BF, 0x01BF, 1, 56, []⟩, ⟨0x01C5, 0x01C5, 1, -1, []⟩,
    ⟨0x01C6, 0x01C6, 1, -2, []⟩, ⟨0x01C8, 0x01C8, 1, -1, []⟩, ⟨0x01C9, 0x01C9, 1, -2, []⟩,
    ⟨0x01CB, 0x01CB, 1, -1, []⟩, ⟨0x01CC, 0x01CC, 1, -2, []⟩, ⟨0x01CE, 0x01DC, 2, -1, []⟩,
    ⟨0x01DD, 0x01DD, 1, -79, []⟩, ⟨0x01DF, 0x01EF, 2, -1, []⟩,
    ⟨0x01F0, 0x01F0, 1, -422, [0x030C]⟩, ⟨0x01F2, 0x01F2, 1, -1, []⟩, ⟨0x01F3, 0x01F3, 1, -2, []⟩,
    ⟨0x01F5, 0x01F5, 1, -1, []⟩, ⟨0x01F9, 0x021F, 2, -1, []⟩, ⟨0x0223, 0x0233, 2, -1, []⟩,
    ⟨0x023C, 0x023C, 1, -1, []⟩, ⟨0x023F, 0x0240, 1, 10815, []⟩, ⟨0x0242, 0x0242, 1, -1, []⟩,
    ⟨0x0247, 0x024F, 2, -1, []⟩, ⟨0x0250, 0x0250, 1, 10783, []⟩, ⟨0x0251, 0x0251, 1, 10780, []⟩,
    ⟨0x0252, 0x0252, 1, 10782, []⟩, ⟨0x0253, 0x0253, 1, -210, []⟩, ⟨0x0254, 0x0254, 1, -206, []⟩,
    ⟨0x0256, 0x0257, 1, -205, []⟩, ⟨0x0259, 0x0259, 1, -202, []⟩, ⟨0x025B, 0x025B, 1, -203, []⟩,
    ⟨0x025C, 0x025C, 1, 42319, []⟩, ⟨0x0260, 0x0260, 1, -205, []⟩, ⟨0x0261, 0x0261, 1, 42315, []⟩,
    ⟨0x0263, 0x0263, 1, -207, []⟩, ⟨0x0264, 0x0264, 1, 42343, []⟩, ⟨0x0265, 0x0265, 1, 42280, []⟩,
    ⟨0x0266, 0x0266, 1, 42308, []⟩, ⟨0x0268, 0x0268, 1, -209, []⟩, ⟨0x0269, 0x0269, 1, -211, []⟩,
    ⟨0x026A, 0x026A, 1, 42308, []⟩, ⟨0x026B, 0x026B, 1, 10743, []⟩,
    ⟨0x026C, 0x026C, 1, 42305, []⟩, ⟨0x026F, 0x026F, 1, -211, []⟩, ⟨0x0271, 0x0271, 1, 10749, []⟩,
    ⟨0x0272, 0x0272, 1, -213, []⟩, ⟨0x0275, 0x0275, 1, -214, []⟩, ⟨0x027D, 0x027D, 1, 10727, []⟩,
    ⟨0x0280, 0x0280, 1, -218, []⟩, ⟨0x0282, 0x0282, 1, 42307, []⟩, ⟨0x0283, 0x0283, 1, -218, []⟩,
    ⟨0x0287, 0x0287, 1, 42282, []⟩, ⟨0x0288, 0x0288, 1, -218, []⟩, ⟨0x0289, 0x0289, 1, -69, []⟩,
    ⟨0x028A, 0x028B, 1, -217, []⟩, ⟨0x028C, 0x028C, 1, -71, []⟩, ⟨0x0292, 0x0292, 1, -219, []⟩,
    ⟨0x029D, 0x029D, 1, 42261, []⟩, ⟨0x029E, 0x029E, 1, 42258, []⟩, ⟨0x0345, 0x0345, 1, 84, []⟩,
    ⟨0x0371, 0x0373, 2, -1, []⟩, ⟨0x0377, 0x0377, 1, -1, []⟩, ⟨0x037B, 0x037D, 1, 130, []⟩,
    ⟨0x0390, 0x0390, 1, 9, [0x0308, 0x0301]⟩, ⟨0x03AC, 0x03AC, 1, -38, []⟩,
    ⟨0x03AD, 0x03AF, 1, -37, []⟩, ⟨0x03B0, 0x03B0, 1, -11, [0x0308, 0x0301]⟩,
    ⟨0x03B1, 0x03C1, 1, -32, []⟩, ⟨0x03C2, 0x03C2, 1, -31, []⟩, ⟨0x03C3, 0x03CB, 1, -32, []⟩,
    ⟨0x03CC, 0x03CC, 1, -64, []⟩, ⟨0x03CD, 0x03CE, 1, -63, []⟩, ⟨0x03D0, 0x03D0, 1, -62, []⟩,
    ⟨0x03D1, 0x03D1, 1, -57, []⟩, ⟨0x03D5, 0x03D5, 1, -47, []⟩, ⟨0x03D6, 0x03D6, 1, -54, []⟩,
    ⟨0x03D7, 0x03D7, 1, -8, []⟩, ⟨0x03D9, 0x03EF, 2, -1, []⟩, ⟨0x03F0, 0x03F0, 1, -86, []⟩,
    ⟨0x03F1, 0x03F1, 1, -80, []⟩, ⟨0x03F2, 0x03F2, 1, 7, []⟩, ⟨0x03F3, 0x03F3, 1, -116, []⟩,
    ⟨0x03F5, 0x03F5, 1, -96, []⟩, ⟨0x03F8, 0x03F8, 1, -1, []⟩, ⟨0x03FB, 0x03FB, 1, -1, []⟩,
    ⟨0x0430, 0x044F, 1, -32, []⟩, ⟨0x0450, 0x045F, 1, -80, []⟩, ⟨0x0461, 0x0481, 2, -1, []⟩,
    ⟨0x048B, 0x04BF, 2, -1, []⟩, ⟨0x04C2, 0x04CE, 2, -1, []⟩, ⟨0x04CF, 0x04CF, 1, -15, []⟩,
    ⟨0x04D1, 0x052F, 2, -1, []⟩, ⟨0x0561, 0x0586, 1, -48, []⟩, ⟨0x0587, 0x0587, 1, -82, [0x0552]⟩,
    ⟨0x10D0, 0x10FA, 1, 3008, []⟩, ⟨0x10FD, 0x10FF, 1, 3008, []⟩, ⟨0x13F8, 0x13FD, 1, -8, []⟩,
    ⟨0x1C80, 0x1C80, 1, -6254, []⟩, ⟨0x1C81, 0x1C81, 1, -6253, []⟩,
    ⟨0x1C82, 0x1C82, 1, -6244, []⟩, ⟨0x1C83, 0x1C84, 1, -6242, []⟩,
    ⟨0x1C85, 0x1C85, 1, -6243, []⟩, ⟨0x1C86, 0x1C86, 1, -6236, []⟩,
    ⟨0x1C87, 0x1C87, 1, -6181, []⟩, ⟨0x1C88, 0x1C88, 1, 35266, []⟩, ⟨0x1C8A, 0x1C8A, 1, -1, []⟩,
    ⟨0x1D79, 0x1D79, 1, 35332, []⟩, ⟨0x1D7D, 0x1D7D, 1, 3814, []⟩, ⟨0x1D8E, 0x1D8E, 1, 35384, []⟩,
    ⟨0x1E01, 0x1E95, 2, -1, []⟩, ⟨0x1E96, 0x1E96, 1, -7758, [0x0331]⟩,
    ⟨0x1E97, 0x1E97, 1, -7747, [0x0308]⟩, ⟨0x1E98, 0x1E98, 1, -7745, [0x030A]⟩,
    ⟨0x1E99, 0x1E99, 1, -7744, [0x030A]⟩, ⟨0x1E9A, 0x1E9A, 1, -7769, [0x02BE]⟩,
    ⟨0x1E9B, 0x1E9B, 1, -59, []⟩, ⟨0x1EA1, 0x1EFF, 2, -1, []⟩, ⟨0x1F00, 0x1F07, 1, 8, []⟩,
    ⟨0x1F10, 0x1F15, 1, 8, []⟩, ⟨0x1F20, 0x1F27, 1, 8, []⟩, ⟨0x1F30, 0x1F37, 1, 8, []⟩,
    ⟨0x1F40, 0x1F45, 1, 8, []⟩, ⟨0x1F50, 0x1F50, 1, -7083, [0x0313]⟩, ⟨0x1F51, 0x1F57, 2, 8, []⟩,
    ⟨0x1F52, 0x1F52, 1, -7085, [0x0313, 0x0300]⟩, ⟨0x1F54, 0x1F54, 1, -7087, [0x0313, 0x0301]⟩,
    ⟨0x1F56, 0x1F56, 1, -7089, [0x0313, 0x0342]⟩, ⟨0x1F60, 0x1F67, 1, 8, []⟩,
    ⟨0x1F70, 0x1F71, 1, 74, []⟩, ⟨0x1F72, 0x1F75, 1, 86, []⟩, ⟨0x1F76, 0x1F77, 1, 100, []⟩,
    ⟨0x1F78, 0x1F79, 1, 128, []⟩, ⟨0x1F7A, 0x1F7B, 1, 112, []⟩, ⟨0x1F7C, 0x1F7D, 1, 126, []⟩,
    ⟨0x1F80, 0x1F87, 1, -120, [0x0399]⟩, ⟨0x1F88, 0x1F8F, 1, -128, [0x0399]⟩,
    ⟨0x1F90, 0x1F97, 1, -104, [0x0399]⟩, ⟨0x1F98, 0x1F9F, 1, -112, [0x0399]⟩,
    ⟨0x1FA0, 0x1FA7, 1, -56, [0x0399]⟩, ⟨0x1FA8, 0x1FAF, 1, -64, [0x0399]⟩,
    ⟨0x1FB0, 0x1FB1, 1, 8, []⟩, ⟨0x1FB2, 0x1FB2, 1, 8, [0x0399]⟩,
    ⟨0x1FB3, 0x1FB3, 1, -7202, [0x0399]⟩, ⟨0x1FB4, 0x1FB4, 1, -7214, [0x0399]⟩,
    ⟨0x1FB6, 0x1FB6, 1, -7205, [0x0342]⟩, ⟨0x1FB7, 0x1FB7, 1, -7206, [0x0342, 0x0399]⟩,
    ⟨0x1FBC, 0x1FBC, 1, -7211, [0x0399]⟩, ⟨0x1FBE, 0x1FBE, 1, -7205, []⟩,
    ⟨0x1FC2, 0x1FC2, 1, 8, [0x0399]⟩, ⟨0x1FC3, 0x1FC3, 1, -7212, [0x0399]⟩,
    ⟨0x1FC4, 0x1FC4, 1, -7227, [0x0399]⟩, ⟨0x1FC6, 0x1FC6, 1, -7215, [0x0342]⟩,
    ⟨0x1FC7, 0x1FC7, 1, -7216, [0x0342, 0x0399]⟩, ⟨0x1FCC, 0x1FCC, 1, -7221, [0x0399]⟩,
    ⟨0x1FD0, 0x1FD1, 1, 8, []⟩, ⟨0x1FD2, 0x1FD2, 1, -7225, [0x0308, 0x0300]⟩,
    ⟨0x1FD3, 0x1FD3, 1, -7226, [0x0308, 0x0301]⟩, ⟨0x1FD6, 0x1FD6, 1, -7229, [0x0342]⟩,
    ⟨0x1FD7, 0x1FD7, 1, -7230, [0x0308, 0x0342]⟩, ⟨0x1FE0, 0x1FE1, 1, 8, []⟩,
    ⟨0x1FE2, 0x1FE2, 1, -7229, [0x0308, 0x0300]⟩, ⟨0x1FE3, 0x1FE3, 1, -7230, [0x0308, 0x0301]⟩,
    ⟨0x1FE4, 0x1FE4, 1, -7235, [0x0313]⟩, ⟨0x1FE5, 0x1FE5, 1, 7, []⟩,
    ⟨0x1FE6, 0x1FE6, 1, -7233, [0x0342]⟩, ⟨0x1FE7, 0x1FE7, 1, -7234, [0x0308, 0x0342]⟩,
    ⟨0x1FF2, 0x1FF2, 1, 8, [0x0399]⟩, ⟨0x1FF3, 0x1FF3, 1, -7242, [0x0399]⟩,
    ⟨0x1FF4, 0x1FF4, 1, -7269, [0x0399]⟩, ⟨0x1FF6, 0x1FF6, 1, -7245, [0x0342]⟩,
    ⟨0x1FF7, 0x1FF7, 1, -7246, [0x0342, 0x0399]⟩, ⟨0x1FFC, 0x1FFC, 1, -7251, [0x0399]⟩,
    ⟨0x214E, 0x214E, 1, -28, []⟩, ⟨0x2170, 0x217F, 1, -16, []⟩, ⟨0x2184, 0x2184, 1, -1, []⟩,
    ⟨0x24D0, 0x24E9, 1, -26, []⟩, ⟨0x2C30, 0x2C5F, 1, -48, []⟩, ⟨0x2C61, 0x2C61, 1, -1, []⟩,
    ⟨0x2C65, 0x2C65, 1, -10795, []⟩, ⟨0x2C66, 0x2C66, 1, -10792, []⟩, ⟨0x2C68, 0x2C6C, 2, -1, []⟩,
    ⟨0x2C73, 0x2C73, 1, -1, []⟩, ⟨0x2C76, 0x2C76, 1, -1, []⟩, ⟨0x2C81, 0x2CE3, 2, -1, []⟩,
    ⟨0x2CEC, 0x2CEE, 2, -1, []⟩, ⟨0x2CF3, 0x2CF3, 1, -1, []⟩, ⟨0x2D00, 0x2D25, 1, -7264, []⟩,
    ⟨0x2D27, 0x2D27, 1, -7264, []⟩, ⟨0x2D2D, 0x2D2D, 1, -7264, []⟩, ⟨0xA641, 0xA66D, 2, -1, []⟩,
    ⟨0xA681, 0xA69B, 2, -1, []⟩, ⟨0xA723, 0xA72F, 2, -1, []⟩, ⟨0xA733, 0xA76F, 2, -1, []⟩,
    ⟨0xA77A, 0xA77C, 2, -1, []⟩, ⟨0xA77F, 0xA787, 2, -1, []⟩, ⟨0xA78C, 0xA78C, 1, -1, []⟩,
    ⟨0xA791, 0xA793, 2, -1, []⟩, ⟨0xA794, 0xA794, 1, 48, []⟩, ⟨0xA797, 0xA7A9, 2, -1, []⟩,
    ⟨0xA7B5, 0xA7C3, 2, -1, []⟩, ⟨0xA7C8, 0xA7CA, 2, -1, []⟩, ⟨0xA7CD, 0xA7DB, 2, -1, []⟩,
    ⟨0xA7F6, 0xA7F6, 1, -1, []⟩, ⟨0xAB53, 0xAB53, 1, -928, []⟩, ⟨0xAB70, 0xABBF, 1, -38864, []⟩,
    ⟨0xFB00, 0xFB00, 1, -64186, [0x0046]⟩, ⟨0xFB01, 0xFB01, 1, -64187, [0x0049]⟩,
    ⟨0xFB02, 0xFB02, 1, -64188, [0x004C]⟩, ⟨0xFB03, 0xFB03, 1, -64189, [0x0046, 0x0049]⟩,
    ⟨0xFB04, 0xFB04, 1, -64190, [0x0046, 0x004C]⟩, ⟨0xFB05, 0xFB05, 1, -64178, [0x0054]⟩,
    ⟨0xFB06, 0xFB06, 1, -64179, [0x0054]⟩, ⟨0xFB13, 0xFB13, 1, -62927, [0x0546]⟩,
    ⟨0xFB14, 0xFB14, 1, -62928, [0x0535]⟩, ⟨0xFB15, 0xFB15, 1, -62929, [0x053B]⟩,
    ⟨0xFB16, 0xFB16, 1, -62920, [0x0546]⟩, ⟨0xFB17, 0xFB17, 1, -62931, [0x053D]⟩,
    ⟨0xFF41, 0xFF5A, 1, -32, []⟩, ⟨0x10428, 0x1044F, 1, -40, []⟩, ⟨0x104D8, 0x104FB, 1, -40, []⟩,
    ⟨0x10597, 0x105BB, 2, -39, []⟩, ⟨0x10598, 0x105A0, 2, -39, []⟩,
    ⟨0x105A4, 0x105B0, 2, -39, []⟩, ⟨0x105B4, 0x105B8, 2, -39, []⟩,
    ⟨0x105BC, 0x105BC, 1, -39, []⟩, ⟨0x10CC0, 0x10CF2, 1, -64, []⟩,
    ⟨0x10D70, 0x10D85, 1, -32, []⟩, ⟨0x118C0, 0x118DF, 1, -32, []⟩,
    ⟨0x16E60, 0x16E7F, 1, -32, []⟩, ⟨0x16EBB, 0x16ED3, 1, -27, []⟩,
    ⟨0x1E922, 0x1E943, 1, -34, []⟩]

end UpperRun

/-- The upper-case form of a character; the character itself if it has none. -/
def upperChar (c : Char) : Text :=
  if c.toNat < 0x80 then [c.toUpper]
  else
    match UpperRun.table.find? (·.covers c.toNat) with
    | some r => r.upper c.toNat
    | none => [c]

namespace Text

/-- The text with every character in its upper-case form. -/
def upper (t : Text) : Text := t.flatMap upperChar

@[simp] theorem upper_append (t u : Text) : upper (t ++ u) = upper t ++ upper u := by simp [upper]

/-- On ASCII text upper-casing is character by character. -/
theorem upper_eq_map {t : Text} (h : ∀ c ∈ t, c.toNat < 0x80) : upper t = t.map Char.toUpper := by
  induction t with
  | nil => rfl
  | cons c t ih =>
    rw [upper, List.flatMap_cons, ← upper, ih fun x hx => h x (List.mem_cons_of_mem c hx)]
    simp [upperChar, h c List.mem_cons_self]

end Text

end Firewall
