/-! Report columns: text padded with spaces to a width, never cut. -/

set_option autoImplicit false

namespace LazyGraph.Text

def spaces (n : Nat) : String :=
  String.ofList (List.replicate n ' ')

def left (width : Nat) (text : String) : String :=
  text ++ spaces (width - text.length)

def right (width : Nat) (text : String) : String :=
  spaces (width - text.length) ++ text

def rule (width : Nat) : String :=
  String.ofList (List.replicate width '-')

end LazyGraph.Text
