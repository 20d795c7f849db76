import Rustruct.Pack

/-!
# The Python bindings

The interpreters at the builder and the source of the bindings. Values are as in the core. What the bindings
add is that every name they set in a dict, or look up in one, is taken from the key cache of the codec, which
has to have it.
-/

namespace Rustruct

/-- The interned names. -/
abbrev KeyCache := List String

def internKey (cache : KeyCache) (name : String) : KeyCache := if name ∈ cache then cache else cache ++ [name]

/-- The name of a key, if it has one. -/
def internName (cache : KeyCache) (key : Key) : KeyCache :=
  match key.name with
  | some name => internKey cache name
  | none => cache

mutual

def collectOpKeys : Op → KeyCache → KeyCache
  | .fixed _ items => fun cache => items.foldl (fun cache item => internName cache item.key) cache
  | .bitRun _ items => fun cache => items.foldl (fun cache item => internName cache item.key) cache
  | .flags _ _ items rest _ c => fun cache =>
    let cache := items.foldl (fun cache item => internKey cache item.key) (internName cache c.key)
    if rest = .keep then internKey cache "_rest" else cache
  | .digest _ _ _ _ c | .bytes _ _ c | .str _ _ _ c | .cstr _ _ c => fun cache => internName cache c.key
  | .nest prog _ c => fun cache => buildKeyCache prog (internName cache c.key)
  | .array _ _ elem _ c => fun cache => collectOpKeys elem (internName cache c.key)
  | .switch _ cases default c => fun cache =>
    collectDefaultKeys default (collectCaseKeys cases (internName cache c.key))
  | .cond _ thn c => fun cache => collectOpKeys thn (internName cache c.key)

def collectCaseKeys : List (Int × Op) → KeyCache → KeyCache
  | [] => fun cache => cache
  | (_, op) :: cases => fun cache => collectCaseKeys cases (collectOpKeys op cache)

def collectDefaultKeys : Option Op → KeyCache → KeyCache
  | none => fun cache => cache
  | some op => collectOpKeys op

def buildKeyCache : Program → KeyCache → KeyCache
  | .mk ops _ _ _ _ => collectOpsKeys ops

def collectOpsKeys : List Op → KeyCache → KeyCache
  | [] => fun cache => cache
  | op :: ops => fun cache => collectOpsKeys ops (collectOpKeys op cache)

end

/-- `key_cache.get(name).expect(..)`. A name that is not there ends the run as `trap`, which is a panic. -/
def KeyCache.expectKey {ε : Type} (cache : KeyCache) (trap : Trap ε) (name : String) : Exec ε Unit :=
  if name ∈ cache then .ok () else .error trap

/-- A dict that is built takes its keys from the cache. -/
@[reducible] def pyBuilder (cache : KeyCache) (trap : Trap UFail) : Builder where
  mapSet map name v := do
    cache.expectKey trap name
    .ok (map ++ [(name, v)])

/-- A dict is looked up by the interned name, another mapping by the name itself. -/
@[reducible] def pySource (cache : KeyCache) (trap : Trap PackFail) (isDict : FieldIndex → Bool) : Source where
  viewGet view name :=
    if isDict view then do
      cache.expectKey trap name
      .ok (view.get name)
    else .ok (view.get name)

/-- `unpack::run_with` -/
def PyBuilder.unpackRun (H : Hashes) (cache : KeyCache) (trap : Trap UFail) (prog : Program) (buf : Buffer)
    (offset : Nat) (exact stream : Bool) : Outcome :=
  @Rustruct.unpackRun (pyBuilder cache trap) H prog buf offset exact stream

/-- `pack::run_with` -/
def PySource.packRun (H : Hashes) (cache : KeyCache) (trap : Trap PackFail) (isDict : FieldIndex → Bool)
    (prog : Program) (values : Value) : PackOutcome :=
  @Rustruct.packRun (pySource cache trap isDict) H prog values

end Rustruct
