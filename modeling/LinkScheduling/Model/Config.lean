import LinkScheduling.Model.Basic

/-!
# `config.cpp`: the configuration

`load_config` from the point where the file was parsed. A number that is not an
integer is kept as whatever `std::stod` made of it, a value of the type `D`; the loader
never looks at it.
-/

namespace LinkScheduling

/-- `Json`. An object is a `std::map`: its members are sorted by key. -/
inductive Json (D : Type) : Type where
  | null
  | bool (boolean : Bool)
  | integer (n : ℤ)
  | real (d : D)
  | string (str : Bytes)
  | object (members : List (Bytes × Json D))
  | array (elements : List (Json D))

namespace Json

variable {D : Type}

def isObject : Json D → Bool
  | .object _ => true
  | _ => false

/-- `object.find(key)` on an object, nothing on any other value. -/
def find (json : Json D) (key : Bytes) : Option (Json D) :=
  match json with
  | .object members => members.lookup key
  | _ => none

def contains (json : Json D) (key : Bytes) : Bool := (json.find key).isSome

end Json

structure ServerConfig where
  ip : Bytes
  port : ℤ
  serverThreads : ℤ
  clientThreads : ℤ
deriving DecidableEq

structure BackendConfig where
  ip : Bytes
  port : ℤ
deriving DecidableEq

structure LoadBalancerConfig where
  ip : Bytes
  port : ℤ
  healthIntervalMs : ℤ
  backends : List BackendConfig
deriving DecidableEq

/-- `Config` of `config.h`; `has_load_balancer` tells whether there is a
`load_balancer`. -/
structure FileConfig where
  server : ServerConfig
  loadBalancer : Option LoadBalancerConfig := none
deriving DecidableEq

def missingField (field : Bytes) : Bytes :=
  ascii "error: missing required field '" ++ field ++ ascii "'"

def invalidType (field : Bytes) : Bytes :=
  ascii "error: invalid type for field '" ++ field ++ ascii "'"

def invalidValue (field : Bytes) : Bytes :=
  ascii "error: invalid value for field '" ++ field ++ ascii "'"

section Loader

variable {D : Type}

/-- The check of a string field: `path` is how the field is named in errors. -/
def stringField (json : Json D) (path key : Bytes) : Except Bytes Bytes :=
  match json.find key with
  | none => .error (missingField (path ++ key))
  | some (.string str) => .ok str
  | some _ => .error (invalidType (path ++ key))

/-- The check of an integer field, with the cast from `long long` to `int`. -/
def intField (json : Json D) (path key : Bytes) : Except Bytes ℤ :=
  match json.find key with
  | none => .error (missingField (path ++ key))
  | some (.integer n) => .ok (int32 n)
  | some _ => .error (invalidType (path ++ key))

def isPort (port : ℤ) : Bool := !(port ≤ 0 || port > 65535)

/-- The part of `load_config` on `server`. -/
def loadServer (server : Json D) : Except Bytes ServerConfig := do
  let ip ← stringField server (ascii "server.") (ascii "ip")
  let port ← intField server (ascii "server.") (ascii "port")
  let serverThreads ← intField server (ascii "server.") (ascii "server_threads")
  let clientThreads ← intField server (ascii "server.") (ascii "client_threads")
  if !isPort port then .error (invalidType (ascii "server.port"))
  else if serverThreads ≤ 0 then .error (invalidType (ascii "server.server_threads"))
  else if clientThreads ≤ 0 then .error (invalidType (ascii "server.client_threads"))
  else
    .ok { ip := ip
          port := port
          serverThreads := serverThreads
          clientThreads := clientThreads }

/-- One pass of the loop over the backends; `path` is the `prefix` of the source. -/
def loadBackend (path : Bytes) (backend : Json D) : Except Bytes BackendConfig := do
  if !backend.isObject then .error (invalidType path)
  else
    let ip ← stringField backend (path ++ ascii ".") (ascii "ip")
    let port ← intField backend (path ++ ascii ".") (ascii "port")
    if !isPort port then .error (invalidValue (path ++ ascii ".port"))
    else .ok { ip := ip, port := port }

/-- The loop over the backends from index `i` on. -/
def loadBackends (i : ℕ) : List (Json D) → Except Bytes (List BackendConfig)
  | [] => .ok []
  | backend :: rest => do
      let parsed ← loadBackend (ascii "load_balancer.backends[" ++ decimal i ++ ascii "]") backend
      let others ← loadBackends (i + 1) rest
      .ok (parsed :: others)

/-- The part of `load_config` on `load_balancer`. -/
def loadLoadBalancer (loadBalancer : Json D) : Except Bytes LoadBalancerConfig := do
  if !loadBalancer.isObject then .error (invalidType (ascii "load_balancer"))
  else
    let ip ← stringField loadBalancer (ascii "load_balancer.") (ascii "ip")
    let port ← intField loadBalancer (ascii "load_balancer.") (ascii "port")
    let healthIntervalMs ←
      intField loadBalancer (ascii "load_balancer.") (ascii "health_interval_ms")
    match loadBalancer.find (ascii "backends") with
    | none => .error (missingField (ascii "load_balancer.backends"))
    | some (.array [a, b, c, d]) => do
        let backends ← loadBackends 0 [a, b, c, d]
        if !isPort port then .error (invalidValue (ascii "load_balancer.port"))
        else if healthIntervalMs ≤ 0 then
          .error (invalidValue (ascii "load_balancer.health_interval_ms"))
        else
          .ok { ip := ip
                port := port
                healthIntervalMs := healthIntervalMs
                backends := backends }
    | some _ =>
        .error (ascii
          "error: field 'load_balancer.backends' must contain exactly four entries")

/-- `load_config` after the parser returned. `Except.error` carries the text of the
exception. -/
def loadConfig (root : Json D) (requireLoadBalancer : Bool) : Except Bytes FileConfig :=
  match root.find (ascii "server") with
  | none => .error (missingField (ascii "server"))
  | some server =>
      if !server.isObject then .error (invalidType (ascii "server"))
      else do
        let server ← loadServer server
        match root.find (ascii "load_balancer") with
        | none =>
            if requireLoadBalancer then .error (missingField (ascii "load_balancer"))
            else .ok { server := server }
        | some loadBalancer => do
            let loadBalancer ← loadLoadBalancer loadBalancer
            .ok { server := server, loadBalancer := some loadBalancer }

end Loader

end LinkScheduling
