/-!
# Texts as bytes

Files hold bytes and texts are read from them as UTF-8. `Text.ofBytes?` refuses bytes that are not
UTF-8, and reading back the bytes of a text gives that text.
-/

namespace Recheck

namespace Text

/-- The UTF-8 encoding of a text. -/
def bytes (s : String) : List UInt8 := s.toUTF8.data.toList

/-- The text that the bytes encode, if they are valid UTF-8. -/
def ofBytes? (bs : List UInt8) : Option String := String.fromUTF8? ⟨bs.toArray⟩

theorem ofBytes?_bytes (s : String) : ofBytes? (bytes s) = some s := by
  have h : (⟨s.toUTF8.data.toList.toArray⟩ : ByteArray) = s.toUTF8 := by simp
  rw [ofBytes?, bytes, h, String.fromUTF8?]
  simp [String.toUTF8, s.isValidUTF8, String.fromUTF8]

end Text

end Recheck
