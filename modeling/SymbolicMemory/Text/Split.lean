/-! # Texts in pieces -/

namespace SymbolicMemory.Text

/-- The pieces of a text between the occurrences of a separator. A text without any is one
    piece. -/
def pieces (separator : Char) (s : List Char) : List (List Char) :=
  s.foldr
    (fun c pieces =>
      if c = separator then [] :: pieces
      else match pieces with
        | [] => [[c]]
        | piece :: rest => (c :: piece) :: rest)
    [[]]

end SymbolicMemory.Text
