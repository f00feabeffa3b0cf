import BuilderForge.Document.Json.Number
/-
  JSON documents as trees.

  Every function here answers a piece of the tree together with the place where
  the text goes on, or with no place if the piece ends in a flaw that can
  neither be read nor skipped. Nobody gets past such a piece, so the tree ends
  right after it. The first argument bounds the nesting; a bound of twice the
  length of the text is never used up, since each two steps down take at least
  one character.
-/

namespace BuilderForge.Document.Json

/-- Where a text goes on: the number of bytes read, and what is left. -/
structure Place where
  read : Nat
  rest : Text

/-- Whether a character may stand between tokens. -/
def isSpace (c : Char) : Bool := c = ' ' || c = '\n' || c = '\r' || c = '\t'

/-- The place of the next token. -/
def Place.next (p : Place) : Place :=
  ⟨p.read + (p.rest.takeWhile isSpace).length, p.rest.dropWhile isSpace⟩

/-- What is reported of a place where something else should stand. -/
def Place.fault (p : Place) : Fault :=
  if p.rest = [] then .ended else .misplaced (p.read + 1)

/-- A node in which the text goes wrong for good. -/
def broken (opening : Fault) (flaw : Flaw) : Node × Option Place := (.flawed opening flaw, none)

/-- The rest of a word. -/
def word (read : Nat) : Text → Text → Except Fault (Found Unit)
  | [], t => .ok ⟨(), read, t⟩
  | _ :: _, [] => .error .ended
  | c :: w, d :: t => if c = d then word (read + 1) w t else .error (.misplaced (read + 1))

/-- The node of a truth value. -/
def boolNode (p : Place) (w : String) (b : Bool) : Node × Option Place :=
  match word p.read w.toList p.rest with
  | .ok found => (.scalar p.fault (.bool b), some ⟨found.read, found.rest⟩)
  | .error f => broken p.fault (.fatal f)

/-- The node of the word `null`. -/
def nullNode (p : Place) : Node × Option Place :=
  match word p.read "null".toList p.rest with
  | .ok found => (.scalar p.fault .null, some ⟨found.read, found.rest⟩)
  | .error f => (.misspelt p.fault f, none)

/-- The node of a string, given the place after the opening quote. -/
def quotedNode (p : Place) : Node × Option Place :=
  match quoted p.read p.rest with
  | .ok ⟨.ok t, read, rest⟩ => (.text t, some ⟨read, rest⟩)
  | .ok ⟨.error f, read, rest⟩ => (.flawed f ⟨f, none⟩, some ⟨read, rest⟩)
  | .error flaw => broken flaw.reading flaw

/-- The node of a number. -/
def numberNode (p : Place) : Node × Option Place :=
  match parts p.read p.rest with
  | .error flaw => broken p.fault flaw
  | .ok found =>
    match found.value.scalar found.read with
    | .ok s => (.scalar p.fault s, some ⟨found.read, found.rest⟩)
    | .error f => (.flawed p.fault ⟨f, none⟩, some ⟨found.read, found.rest⟩)

mutual

/-- The node at the place of a token. -/
def node (bound : Nat) (p : Place) : Node × Option Place :=
  match bound, p.rest with
  | 0, _ => broken .ended (.fatal .ended)
  | _ + 1, [] => broken .ended (.fatal .ended)
  | bound + 1, c :: t =>
    if c = '"' then quotedNode ⟨p.read + 1, t⟩
    else if c = '-' || c.isDigit then numberNode p
    else if c = 'n' then nullNode p
    else if c = 't' then boolNode p "true" true
    else if c = 'f' then boolNode p "false" false
    else if c = '[' then
      let inside := Place.next ⟨p.read + 1, t⟩
      match inside.rest with
      | ']' :: r => (.list p.fault (.ending .closed), some ⟨inside.read + 1, r⟩)
      | _ =>
        match items bound inside with
        | (list, place) => (.list p.fault list, place)
    else if c = '\x7b' then
      let inside := Place.next ⟨p.read + 1, t⟩
      match inside.rest with
      | '\x7d' :: r => (.table inside.fault (.ending .closed), some ⟨inside.read + 1, r⟩)
      | _ =>
        match members bound inside with
        | (list, place) => (.table inside.fault list, place)
    else broken p.fault (.fatal p.fault)

/-- The items of a list from the first one not yet read, which has to follow. -/
def items (bound : Nat) (p : Place) : Items × Option Place :=
  match bound with
  | 0 => (.ending (.broken (.fatal .ended)), none)
  | bound + 1 =>
    if p.rest = [] then (.ending (.broken (.fatal .ended)), none)
    else
      match node bound p with
      | (value, none) => (.item value .ended (.ending .closed), none)
      | (value, some place) =>
        let stop := place.next
        match stop.rest with
        | ']' :: r => (.item value stop.fault (.ending .closed), some ⟨stop.read + 1, r⟩)
        | ',' :: r =>
          let start := Place.next ⟨stop.read + 1, r⟩
          match start.rest with
          | [] =>
            (.item value (.misplaced start.read) (.ending (.broken (.fatal .ended))), none)
          | ']' :: _ =>
            (.item value start.fault (.ending (.broken (.fatal start.fault))), none)
          | _ =>
            match items bound start with
            | (rest, place) => (.item value start.fault rest, place)
        | _ => (.item value stop.fault (.ending (.broken (.fatal stop.fault))), none)

/-- The members of a table from the first one not yet read, which has to follow. -/
def members (bound : Nat) (p : Place) : Members × Option Place :=
  match bound, p.rest with
  | 0, _ => (.ending (.broken (.fatal .ended)), none)
  | bound + 1, '"' :: t =>
    match quoted (p.read + 1) t with
    | .error flaw => (.ending (.broken flaw), none)
    | .ok found =>
      let key := match found.value with
        | .ok k => Key.text k
        | .error f => Key.flawed f
      let colon := Place.next ⟨found.read, found.rest⟩
      match colon.rest with
      | ':' :: r =>
        match node bound (Place.next ⟨colon.read + 1, r⟩) with
        | (value, none) => (.member key value .ended (.ending .closed), none)
        | (value, some place) =>
          let stop := place.next
          let after : Fault := if stop.rest = [] then .ended else .misplaced stop.read
          match stop.rest with
          | '\x7d' :: r => (.member key value after (.ending .closed), some ⟨stop.read + 1, r⟩)
          | ',' :: r =>
            match members bound (Place.next ⟨stop.read + 1, r⟩) with
            | (rest, place) => (.member key value after rest, place)
          | _ => (.member key value after (.ending (.broken (.fatal stop.fault))), none)
      | _ =>
        let fault := colon.fault
        (.member key (.flawed fault (.fatal fault)) fault (.ending .closed), none)
  | _ + 1, _ => (.ending (.broken (.fatal p.fault)), none)

end

/-- The document that a text is. -/
def document (t : Text) : Document :=
  let start := Place.next ⟨0, t⟩
  match node (2 * t.length + 2) start with
  | (root, none) => ⟨root, none⟩
  | (root, some place) =>
    let stop := place.next
    ⟨root, if stop.rest = [] then none else some stop.fault⟩

end BuilderForge.Document.Json
