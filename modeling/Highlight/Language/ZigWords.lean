import Highlight.Word.Class

/-!
The words of Zig, and what its keywords announce.
-/

namespace Highlight.Zig

/-- The keywords of Zig. -/
def keywords : WordSet := .ofString
  ("addrspace align allowzero and anyframe anytype asm async await break callconv catch " ++
    "comptime const continue defer else enum errdefer error export extern false fn for if " ++
    "inline linksection noalias noinline nosuspend null opaque or orelse packed pub " ++
    "resume return struct suspend switch test threadlocal true try undefined union " ++
    "unreachable usingnamespace var volatile while")

/-- The types that Zig knows by name. -/
def types : WordSet := .ofString
  ("anyerror anyopaque bool c_char c_int c_long c_longdouble c_longlong c_short c_uint " ++
    "c_ulong c_ulonglong c_ushort comptime_float comptime_int f16 f32 f64 f80 f128 i8 i16 " ++
    "i32 i64 i128 isize noreturn type u1 u8 u16 u32 u64 u128 usize void")

/-- The words that Zig knows unless told otherwise. -/
def words : WordSets := { keywords := keywords, types := types }

/-- The keywords after which a value comes. -/
def valueWords : WordSet := .ofString
  "return try catch orelse and or await resume defer errdefer comptime break continue else"

/-- What a keyword announces: `fn` a definition, and the words of control flow a value. -/
def announcedBy (w : Text) : Announced :=
  if w = Text.ofString "fn" then .functionName
  else if valueWords.contains w then .value
  else .nothing

end Highlight.Zig
