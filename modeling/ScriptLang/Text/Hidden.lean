import ScriptLang.Text.Combining
import ScriptLang.Text.Unassigned

/-!
# Characters that do not show

Control and format characters, spaces other than the ordinary one, private and unassigned characters, marks that
combine with the character before them, and the letters that only fill a place.
-/

namespace ScriptLang.Text

/-- Control, format and private characters, surrogates, and separators other than the ordinary space. -/
def invisible : Ranges :=
  [(0x0, 0x1f), (0x7f, 0xa0), (0xad, 0xad), (0x600, 0x605), (0x61c, 0x61c), (0x6dd, 0x6dd), (0x70f, 0x70f),
    (0x890, 0x891), (0x8e2, 0x8e2), (0x1680, 0x1680), (0x180e, 0x180e), (0x2000, 0x200f), (0x2028, 0x202f),
    (0x205f, 0x2064), (0x2066, 0x206f), (0x3000, 0x3000), (0xd800, 0xf8ff), (0xfeff, 0xfeff), (0xfff9, 0xfffb),
    (0x110bd, 0x110bd), (0x110cd, 0x110cd), (0x13430, 0x1343f), (0x1bca0, 0x1bca3), (0x1d173, 0x1d17a),
    (0xe0001, 0xe0001), (0xe0020, 0xe007f), (0xf0000, 0xffffd), (0x100000, 0x10fffd)]

/-- Letters that fill the place of another letter and are ignored when text is shown. -/
def fillers : Ranges := [(0x115f, 0x1160), (0x3164, 0x3164), (0xffa0, 0xffa0)]

/-- Whether a character does not show by itself. -/
def isHidden (c : Char) : Bool :=
  invisible.has c.toNat || combining.has c.toNat || fillers.has c.toNat || unassigned.has c.toNat

end ScriptLang.Text
