/-! # JSON values

Numbers without point and exponent that fit in 64 bits are integers; all others are doubles. The
fields of an object keep their order.
-/

namespace RingLayout

inductive Json where
  | null
  | bool (b : Bool)
  | integer (n : Int)
  | real (x : Float)
  | text (s : String)
  | list (items : List Json)
  | object (fields : List (String × Json))

namespace Json

/-- The value of the last field of a name. -/
def field? (name : String) (fields : List (String × Json)) : Option Json :=
  (fields.reverse.find? (·.1 == name)).map (·.2)

end Json

end RingLayout
