import Ralph.ChatMemory.Tree

namespace Ralph.Chunk

inductive ChunkType
  | prose
  | code (language : Option String)
  | diff
  | directive (verb target : String)
  deriving DecidableEq, Repr

structure ParsedChunk where
  chunkType : ChunkType
  content : String
  deriving DecidableEq, Repr

namespace ParsedChunk

def prose (content : String) : ParsedChunk := ⟨.prose, content⟩

def code (content : String) (language : Option String) : ParsedChunk := ⟨.code language, content⟩

def diff (content : String) : ParsedChunk := ⟨.diff, content⟩

def directive (content verb target : String) : ParsedChunk := ⟨.directive verb target, content⟩

end ParsedChunk

end Ralph.Chunk
