import Rebuild.Error
/-!
# A cache of the most used

A cache keeps at most `capacity` values. Every request for a key is counted, also after the
value was dropped. When a value has no place, the value of the least used key goes; of several,
the one that was active longest since the last such choice.
-/

namespace Rebuild

/-- What is kept of a key. -/
structure CacheItem (α : Type) where
  key : Text
  count : Nat
  value : Option α
deriving Repr

/-- A cache that keeps the values most asked for. -/
structure Cache (α : Type) where
  capacity : Nat
  /-- The keys ever asked for, in order of the first request. -/
  items : List (CacheItem α)
  /-- The keys whose value has a place. -/
  active : List Text
deriving Repr

namespace Cache

variable {α : Type}

/-- A cache in which nothing was asked for. -/
def empty (capacity : Nat) : Cache α := ⟨capacity, [], []⟩

/-- What is known of a key. -/
def item? (c : Cache α) (key : Text) : Option (CacheItem α) := c.items.find? (·.key == key)

/-- Change what is known of a key. -/
def update (c : Cache α) (key : Text) (f : CacheItem α → CacheItem α) : Cache α :=
  { c with items := c.items.map fun i => if i.key == key then f i else i }

/-- Count a request for a key. -/
def request (c : Cache α) (key : Text) : Cache α :=
  match c.item? key with
  | some _ => c.update key fun i => { i with count := i.count + 1 }
  | none => { c with items := c.items ++ [⟨key, 1, none⟩] }

/-- The remembered value of a key. -/
def value? (c : Cache α) (key : Text) : Option α := (c.item? key).bind (·.value)

/-- How often a key was asked for. -/
def countOf (c : Cache α) (key : Text) : Nat := ((c.item? key).map (·.count)).getD 0

/-- The active keys, the least used first. -/
def byUse (c : Cache α) : List Text :=
  c.active.mergeSort fun a b => c.countOf a ≤ c.countOf b

/-- Give a key a place, taking that of the least used key if there is none left. A cache without
places cannot give one. -/
def activate (c : Cache α) (key : Text) : Except Error (Cache α) :=
  if c.active.contains key then .ok c
  else if c.active.length = c.capacity then
    match c.byUse with
    | [] => .error (.breach .index)
    | old :: rest =>
      .ok { c.update old fun i => { i with value := none } with active := rest ++ [key] }
  else .ok { c with active := c.active ++ [key] }

/-- Remember an object, or that there is none; either takes a place. -/
def store (c : Cache α) (key : Text) (o : Option α) : Cache α × Except Error Unit :=
  let c := c.update key fun i => { i with value := o }
  match c.activate key with
  | .ok c => (c, .ok ())
  | .error e => (c, .error e)

/-- The object of a key: the remembered one if it is still accepted, else a new one, which may be
missing. A failed creation leaves what was remembered. -/
def get {m : Type → Type} [Monad m] (c : Cache α) (key : Text) (accept : α → m Bool)
    (create : m (Except Error (Option α))) : m (Cache α × Except Error (Option α)) := do
  let c := c.request key
  match ← accepted (c.value? key) with
  | some v => return (c, .ok (some v))
  | none =>
    match ← create with
    | .error e => return (c, .error e)
    | .ok o =>
      match c.store key o with
      | (c, .ok ()) => return (c, .ok o)
      | (c, .error e) => return (c, .error e)
where
  /-- A remembered value, if it is accepted. -/
  accepted : Option α → m (Option α)
    | some v => do return if ← accept v then some v else none
    | none => return none

/-- An object that is used must be there. -/
def object : Option α → Except Error α
  | some v => .ok v
  | none => .error (.breach .part)

/-- The object of a key where every creation that does not fail gives one. -/
def fetch {m : Type → Type} [Monad m] (c : Cache α) (key : Text) (accept : α → m Bool)
    (create : m (Except Error α)) : m (Cache α × Except Error α) := do
  let (c, r) ← c.get key accept (do return (← create).map some)
  return (c, r.bind object)

/-- The text that describes a key with its count and value. -/
def listing (c : Cache Text) (key : Text) : Text :=
  "MostUsedItem(key=" ++ Text.quoted key ++ ", count=" ++ Text.ofNat (c.countOf key) ++ ", o="
    ++ ((c.value? key).map Text.quoted).getD "None" ++ ")"

/-- Is every key active exactly if it has a value that counts? -/
def consistent (c : Cache α) (counts : α → Bool) : Bool :=
  c.items.all fun i => ((i.value.map counts).getD false) == c.active.contains i.key

end Cache

end Rebuild
