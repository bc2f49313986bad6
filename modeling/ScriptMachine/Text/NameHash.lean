/-! # Hashes of names

The 32-bit FNV-1a hash of a name's UTF-8 bytes: start from the offset basis,
and for each byte, exclusive-or it in and multiply by the prime, modulo 2^32. -/

namespace ScriptMachine

/-- FNV-1a over a list of bytes. -/
def fnv1a (bytes : List UInt8) : UInt32 :=
  bytes.foldl (fun hash byte => (hash ^^^ byte.toUInt32) * 16777619) 2166136261

/-- The hash of a name. -/
def hashName (name : String) : UInt32 := fnv1a name.toUTF8.toList

end ScriptMachine
