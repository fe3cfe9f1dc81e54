import Recheck.Content
import Recheck.Path
import Recheck.Text.Utf8

/-!
# Digests

Contents are remembered by a digest of their normal form. Everything that compares contents takes
the digest as a parameter, so what is said about it needs no property of a particular one.
-/

namespace Recheck

/-- A digest of bytes, written as text. -/
structure Digest where
  hex : List UInt8 → String

namespace Digest

/-- The digest of the normal form of a content. -/
def ofContent (d : Digest) (content : List UInt8) : String := d.hex (Content.normalize content)

/-- The digest that stands for a file that cannot be read. It depends on
the text shown for the path alone. -/
def ofUnreadable (d : Digest) (p : Path) : String :=
  d.hex (Text.bytes "unreadable:" ++ Text.bytes p.shown)

end Digest

end Recheck
