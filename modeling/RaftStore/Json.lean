import RaftStore.Text

/-!
# JSON values

What the sources do with `nlohmann::json`: values built from initializer lists, members read by name, `get` and `value`. A value stands
for its text, which `dump` writes where every string is valid UTF-8 and `parse` reads back. The nodes write no floating-point numbers,
and a value here has none.
-/

namespace RaftStore

/-- The exceptions of `std::stoi` and of `nlohmann::json`. -/
inductive Exception where
  | invalidArgument
  | outOfRange
  | typeError
  deriving DecidableEq

/-- A `nlohmann::json`. The members of an object stand in the order of the sources; a `std::map` keeps them by name. -/
inductive Json where
  | null
  | bool (b : Bool)
  | int (i : ℤ)
  | str (s : Str)
  | arr (elements : List Json)
  | obj (members : List (String × Json))

namespace Json

/-- A string of the sources, all of whose characters are ASCII. -/
def lit (s : String) : Json := .str (ascii s)

/-- `j == s` for a string literal. -/
def isLit (j : Json) (s : String) : Bool :=
  match j with
  | .str t => decide (t = ascii s)
  | _ => false

/-- `j[name]`. A member that is missing is `null`; in a constant value it must not be missing. -/
def member (name : String) : Json → Except Exception Json
  | .null => .ok .null
  | .obj members => .ok ((members.lookup name).getD .null)
  | _ => .error .typeError

/-- `j[name₁]...[nameₖ]`. -/
def path : List String → Json → Except Exception Json
  | [], j => .ok j
  | name :: names, j => (j.member name).bind (path names)

/-- `j.get<int>()` and `j.get<long long>()`, of a number that the type has. -/
def getInt : Json → Except Exception ℤ
  | .int i => .ok i
  | .bool b => .ok b.toNat
  | _ => .error .typeError

/-- `j.get<std::string>()`. -/
def getStr : Json → Except Exception Str
  | .str s => .ok s
  | _ => .error .typeError

/-- `j.value(name, default)`, where `get` is `get<T>()`. -/
def value {α : Type} (get : Json → Except Exception α) (name : String) (default : α) : Json → Except Exception α
  | .obj members => ((members.lookup name).map get).getD (.ok default)
  | _ => .error .typeError

/-- `for (const auto &x : j)`. -/
def elements : Json → List Json
  | .null => []
  | .arr xs => xs
  | .obj members => members.map Prod.snd
  | j => [j]

mutual

/-- `dump` does not throw: all strings are valid UTF-8. -/
def dumps : Json → Bool
  | .str s => isUtf8 s
  | .arr xs => dumpsAll xs
  | .obj members => dumpsMembers members
  | _ => true

def dumpsAll : List Json → Bool
  | [] => true
  | x :: xs => x.dumps && dumpsAll xs

def dumpsMembers : List (String × Json) → Bool
  | [] => true
  | (_, x) :: members => x.dumps && dumpsMembers members

end

end Json

end RaftStore
