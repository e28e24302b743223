import Rost.Basic

/-!
# The built-in font

The glyphs of the terminal, 8 × 16 pixels each, for the characters from the blank to the tilde.
-/

namespace Rost.Gop

/-- `GLYPHS`: the rows of a glyph are the bytes of a number, the top row first. -/
def glyphs : List (BitVec 128) :=
  [
    0x00000000000000000000000000000000, 0x0000183C3C3C18181800181800000000, 0x00006666662400000000000000000000,
    0x0000006C6CFE6C6C6CFE6C6C00000000, 0x0000187EFF1B1F7EF8D8FF7E18000000, 0x00000E1BDB6E30180C76DBD870000000,
    0x00001C361C6EDBDB701B0E6F00000000, 0x00000C0C0C0600000000000000000000, 0x0000180C0606060606060C1800000000,
    0x0000060C1818181818180C0600000000, 0x0000000000663CFF3C66000000000000, 0x000000000018187E1818000000000000,
    0x0000000000000000001818180C000000, 0x00000000000000FE0000000000000000, 0x00000000000000000000181800000000,
    0x0000000080C06030180C060300000000, 0x0000386CC6C6D6D6C6C66C3800000000, 0x00001838781818181818187E00000000,
    0x00007CC6060C183060C0C6FE00000000, 0x00007CC606063C060606C67C00000000, 0x00000C1C3C6CCCFE0C0C0C1E00000000,
    0x0000FEC0C0C0FC060606C67C00000000, 0x00003860C0C0FCC6C6C6C67C00000000, 0x0000FEC606060C183030303000000000,
    0x00007CC6C6C67CC6C6C6C67C00000000, 0x00007CC6C6C67E0606060C7800000000, 0x00000000181800000018180000000000,
    0x00000000181800000018180C00000000, 0x000000060C18306030180C0600000000, 0x00000000007E00007E00000000000000,
    0x0000006030180C060C18306000000000, 0x00007CC6C60C18181800181800000000, 0x00007CC6C6DEDEDEDCC0C07C00000000,
    0x000010386CC6C6FEC6C6C6C600000000, 0x0000FC6666667C66666666FC00000000, 0x00003C66C2C0C0C0C0C2663C00000000,
    0x0000F86C6666666666666CF800000000, 0x0000FE6662687868606266FE00000000, 0x0000FE6662687868606060F000000000,
    0x00003C66C2C0C0DEC6C6663A00000000, 0x0000C6C6C6C6FEC6C6C6C6C600000000, 0x00003C18181818181818183C00000000,
    0x00001E0C0C0C0C0CCCCCCC7800000000, 0x0000E666666C78786C6666E600000000, 0x0000F06060606060606266FE00000000,
    0x0000C6EEFEFED6C6C6C6C6C600000000, 0x0000C6E6F6FEDECEC6C6C6C600000000, 0x00007CC6C6C6C6C6C6C6C67C00000000,
    0x0000FC6666667C60606060F000000000, 0x00007CC6C6C6C6C6C6D6DE7C0C0E0000, 0x0000FC6666667C6C666666E600000000,
    0x00007CC6C660380C06C6C67C00000000, 0x00007E7E5A1818181818183C00000000, 0x0000C6C6C6C6C6C6C6C6C67C00000000,
    0x0000C6C6C6C6C6C6C66C381000000000, 0x0000C6C6C6C6D6D6D6FE6C6C00000000, 0x0000C6C66C6C38386C6CC6C600000000,
    0x0000666666663C181818183C00000000, 0x0000FEC6860C183060C2C6FE00000000, 0xFFFFFFFFFFFFFFFFFFFFFFFFFFFFFFFF,
    0x00000003060C183060C0800000000000, 0x00003C0C0C0C0C0C0C0C0C3C00000000, 0x000010386CC600000000000000000000,
    0x0000000000000000000000FF00000000, 0x000030180C0000000000000000000000, 0x0000000000780C7CCCCCCC7600000000,
    0x0000E06060786C66666666DC00000000, 0x00000000007CC6C0C0C0C67C00000000, 0x00001C0C0C3C6CCCCCCCCC7600000000,
    0x00000000007CC6FEC0C0C67C00000000, 0x0000386C6460F060606060F000000000, 0x000000000076CCCCCCCC7C0CCC780000,
    0x0000E060606C7666666666E600000000, 0x00001818003818181818183C00000000, 0x00000606000E060606060666663C0000,
    0x0000E06060666C78786C66E600000000, 0x00003818181818181818183C00000000, 0x0000000000ECFED6D6D6D6C600000000,
    0x0000000000DC66666666666600000000, 0x00000000007CC6C6C6C6C67C00000000, 0x0000000000DC666666667C6060F00000,
    0x000000000076CCCCCCCC7C0C0C1E0000, 0x0000000000DC7666606060F000000000, 0x00000000007CC660380CC67C00000000,
    0x0000103030FC30303030361C00000000, 0x0000000000CCCCCCCCCCCC7600000000, 0x000000000066666666663C1800000000,
    0x0000000000C6C6D6D6D6FE6C00000000, 0x0000000000C66C3838386CC600000000, 0x0000000000C6C6C6C6C67E060CF80000,
    0x0000000000FECC183060C6FE00000000, 0x00000E18181870181818180E00000000, 0x00001818181800181818181800000000,
    0x0000701818180E181818187000000000, 0x000076DC000000000000000000000000
  ]

/-- `glyph(ch)[gy]`: the leftmost pixel is the highest bit. -/
def glyphRow (ch : Byte) (gy : Nat) : Byte :=
  let idx := if 0x20 ≤ ch.toNat ∧ ch.toNat ≤ 0x7E then ch.toNat - 0x20 else 59
  (glyphs.getD idx 0 >>> (8 * (15 - gy))).setWidth 8

end Rost.Gop
