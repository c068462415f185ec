import Mathlib.Data.List.Forall2
import LinkScheduling.Framework.Interaction
import LinkScheduling.Model.Config

/-!
# What `load_config` accepts

`Describes narrow root required config` says what a configuration file with the value
`root` means, with `narrow` applied to its integers. With the cast to `int` this is
exactly what `load_config` does; with the identity it is what the file says. The two
differ where an integer of the file does not fit into an `int`.
-/

namespace LinkScheduling

open Framework

section Describes

variable {D : Type} (narrow : ℤ → ℤ)

def IsPort (port : ℤ) : Prop := 1 ≤ port ∧ port ≤ 65535

def IsCount (count : ℤ) : Prop := 1 ≤ count ∧ count ≤ 2 ^ 31 - 1

/-- The member `key` is an integer and is taken as `z`. -/
def HasInt (json : Json D) (key : Bytes) (z : ℤ) : Prop :=
  ∃ n, json.find key = some (.integer n) ∧ z = narrow n

structure DescribesServer (server : Json D) (config : ServerConfig) : Prop where
  ip : server.find (ascii "ip") = some (.string config.ip)
  port : HasInt narrow server (ascii "port") config.port
  serverThreads : HasInt narrow server (ascii "server_threads") config.serverThreads
  clientThreads : HasInt narrow server (ascii "client_threads") config.clientThreads
  isPort : IsPort config.port
  isServerThreads : IsCount config.serverThreads
  isClientThreads : IsCount config.clientThreads

structure DescribesBackend (backend : Json D) (config : BackendConfig) : Prop where
  object : backend.isObject = true
  ip : backend.find (ascii "ip") = some (.string config.ip)
  port : HasInt narrow backend (ascii "port") config.port
  isPort : IsPort config.port

structure DescribesLoadBalancer (loadBalancer : Json D) (config : LoadBalancerConfig) :
    Prop where
  object : loadBalancer.isObject = true
  ip : loadBalancer.find (ascii "ip") = some (.string config.ip)
  port : HasInt narrow loadBalancer (ascii "port") config.port
  healthIntervalMs : HasInt narrow loadBalancer (ascii "health_interval_ms")
    config.healthIntervalMs
  isPort : IsPort config.port
  isHealthIntervalMs : IsCount config.healthIntervalMs
  backends : ∃ elements, loadBalancer.find (ascii "backends") = some (.array elements) ∧
    elements.length = 4 ∧ List.Forall₂ (DescribesBackend narrow) elements config.backends

/-- `config` is what the file says; a `load_balancer` may be missing unless it is
required. -/
def Describes (root : Json D) (required : Bool) (config : FileConfig) : Prop :=
  (∃ server, root.find (ascii "server") = some server ∧ server.isObject = true ∧
    DescribesServer narrow server config.server) ∧
  match root.find (ascii "load_balancer"), config.loadBalancer with
  | none, none => required = false
  | some loadBalancer, some config => DescribesLoadBalancer narrow loadBalancer config
  | _, _ => False

end Describes

/-! ## The loader -/

section Loader

variable {D : Type}

theorem stringField_eq_ok {json : Json D} {path key s : Bytes} :
    stringField json path key = .ok s ↔ json.find key = some (.string s) := by
  unfold stringField
  split
  · rename_i h
    simp [h]
  · rename_i str h
    simp [h]
  · rename_i j hne h
    rw [h]
    refine ⟨fun h' => (by cases h'), fun h' => ?_⟩
    exact absurd (Option.some.inj h') (hne s)

theorem intField_eq_ok {json : Json D} {path key : Bytes} {z : ℤ} :
    intField json path key = .ok z ↔ HasInt int32 json key z := by
  unfold intField HasInt
  split
  · rename_i h
    simp [h]
  · rename_i n h
    simp [h, eq_comm]
  · rename_i j hne h
    rw [h]
    refine ⟨fun h' => (by cases h'), ?_⟩
    rintro ⟨n, h', -⟩
    exact absurd (Option.some.inj h') (hne n)

theorem isPort_iff {port : ℤ} : isPort port = true ↔ IsPort port := by
  unfold isPort IsPort
  simp only [Bool.not_eq_true', Bool.or_eq_false_iff, decide_eq_false_iff_not]
  omega

theorem int32_lt (z : ℤ) : int32 z ≤ 2 ^ 31 - 1 := by
  have h := Int.emod_lt_of_pos (z + 2 ^ 31) (show (0 : ℤ) < 2 ^ 32 by decide)
  unfold int32
  omega

/-- A positive `int` is a count. -/
theorem HasInt.isCount {json : Json D} {key : Bytes} {z : ℤ} (h : HasInt int32 json key z) :
    IsCount z ↔ ¬ z ≤ 0 := by
  obtain ⟨n, -, rfl⟩ := h
  have hle := int32_lt n
  unfold IsCount
  omega

theorem loadServer_eq_ok {server : Json D} {config : ServerConfig} :
    loadServer server = .ok config ↔ DescribesServer int32 server config := by
  unfold loadServer
  simp only [except_bind_eq_ok, stringField_eq_ok, intField_eq_ok, except_ite_error,
    Except.ok.injEq]
  constructor
  · rintro ⟨ip, hip, port, hport, threads, hthreads, clients, hclients, hp, hs, hc, rfl⟩
    exact ⟨hip, hport, hthreads, hclients, isPort_iff.mp (by simpa using hp),
      hthreads.isCount.mpr hs, hclients.isCount.mpr hc⟩
  · rintro ⟨hip, hport, hthreads, hclients, hp, hs, hc⟩
    exact ⟨_, hip, _, hport, _, hthreads, _, hclients, by simpa using isPort_iff.mpr hp,
      hthreads.isCount.mp hs, hclients.isCount.mp hc, rfl⟩

theorem loadBackend_eq_ok {path : Bytes} {backend : Json D} {config : BackendConfig} :
    loadBackend path backend = .ok config ↔ DescribesBackend int32 backend config := by
  unfold loadBackend
  simp only [except_bind_eq_ok, stringField_eq_ok, intField_eq_ok, except_ite_error,
    Except.ok.injEq]
  constructor
  · rintro ⟨hobj, ip, hip, port, hport, hp, rfl⟩
    exact ⟨by simpa using hobj, hip, hport, isPort_iff.mp (by simpa using hp)⟩
  · rintro ⟨hobj, hip, hport, hp⟩
    exact ⟨by simpa using hobj, _, hip, _, hport, by simpa using isPort_iff.mpr hp, rfl⟩

theorem loadBackends_eq_ok :
    ∀ {i : ℕ} {elements : List (Json D)} {configs : List BackendConfig},
      loadBackends i elements = .ok configs ↔
        List.Forall₂ (DescribesBackend int32) elements configs
  | i, [], configs => by
      simp [loadBackends, eq_comm]
  | i, backend :: rest, configs => by
      unfold loadBackends
      simp only [except_bind_eq_ok, loadBackend_eq_ok, Except.ok.injEq, List.forall₂_cons_left_iff]
      constructor
      · rintro ⟨config, hconfig, others, hothers, rfl⟩
        exact ⟨config, others, hconfig, loadBackends_eq_ok.mp hothers, rfl⟩
      · rintro ⟨config, others, hconfig, hothers, rfl⟩
        exact ⟨config, hconfig, others, loadBackends_eq_ok.mpr hothers, rfl⟩

theorem loadLoadBalancer_eq_ok {loadBalancer : Json D} {config : LoadBalancerConfig} :
    loadLoadBalancer loadBalancer = .ok config ↔
      DescribesLoadBalancer int32 loadBalancer config := by
  unfold loadLoadBalancer
  simp only [except_bind_eq_ok, stringField_eq_ok, intField_eq_ok, except_ite_error]
  constructor
  · rintro ⟨hobj, ip, hip, port, hport, health, hhealth, hrest⟩
    split at hrest
    · cases hrest
    · rename_i a b c d hfind
      simp only [except_bind_eq_ok, except_ite_error, loadBackends_eq_ok, Except.ok.injEq]
        at hrest
      obtain ⟨backends, hbackends, hp, hh, rfl⟩ := hrest
      exact ⟨by simpa using hobj, hip, hport, hhealth, isPort_iff.mp (by simpa using hp),
        hhealth.isCount.mpr hh, [a, b, c, d], hfind, rfl, hbackends⟩
    · cases hrest
  · rintro ⟨hobj, hip, hport, hhealth, hp, hh, elements, hfind, hlen, hbackends⟩
    refine ⟨by simpa using hobj, _, hip, _, hport, _, hhealth, ?_⟩
    match elements, hlen with
    | [a, b, c, d], _ =>
        rw [hfind]
        simp only [except_bind_eq_ok, except_ite_error, loadBackends_eq_ok, Except.ok.injEq]
        exact ⟨_, hbackends, by simpa using isPort_iff.mpr hp, hhealth.isCount.mp hh, rfl⟩

/-- **The loader.** `load_config` succeeds exactly with what the file describes, its
integers cast to `int`. -/
theorem loadConfig_eq_ok {root : Json D} {required : Bool} {config : FileConfig} :
    loadConfig root required = .ok config ↔ Describes int32 root required config := by
  unfold loadConfig Describes
  cases hserver : root.find (ascii "server") with
  | none => simp
  | some server =>
      simp only [except_ite_error, except_bind_eq_ok, loadServer_eq_ok, Option.some.injEq,
        exists_eq_left']
      cases hlb : root.find (ascii "load_balancer") with
      | none =>
          simp only [except_ite_error, Except.ok.injEq]
          constructor
          · rintro ⟨hobj, c, hc, hreq, rfl⟩
            exact ⟨⟨by simpa using hobj, hc⟩, by simpa using hreq⟩
          · rintro ⟨⟨hobj, hc⟩, hreq⟩
            obtain ⟨c, lb⟩ := config
            cases lb with
            | none => exact ⟨by simpa using hobj, c, hc, by simpa using hreq, rfl⟩
            | some lb => exact hreq.elim
      | some loadBalancer =>
          simp only [except_bind_eq_ok, loadLoadBalancer_eq_ok, Except.ok.injEq]
          constructor
          · rintro ⟨hobj, c, hc, lb, hlb, rfl⟩
            exact ⟨⟨by simpa using hobj, hc⟩, hlb⟩
          · rintro ⟨⟨hobj, hc⟩, hlb⟩
            obtain ⟨c, lb⟩ := config
            cases lb with
            | none => exact hlb.elim
            | some lb => exact ⟨by simpa using hobj, c, hc, lb, hlb, rfl⟩

end Loader

/-! ## Integers that do not fit -/

section Fits

variable {D : Type}

/-- `z` is a value of `int`. -/
def Fits (z : ℤ) : Prop := -2 ^ 31 ≤ z ∧ z < 2 ^ 31

theorem int32_of_fits {z : ℤ} (h : Fits z) : int32 z = z := by
  have hmod : (z + 2 ^ 31) % 2 ^ 32 = z + 2 ^ 31 :=
    Int.emod_eq_of_lt (by have := h.1; omega) (by have := h.2; omega)
  unfold int32
  omega

/-- The integers among the members `keys`. -/
def intsOf (json : Json D) (keys : List Bytes) : List ℤ :=
  keys.filterMap fun key => match json.find key with
    | some (.integer n) => some n
    | _ => none

/-- The integers of the file that `load_config` looks at. -/
def readInts (root : Json D) : List ℤ :=
  ((root.find (ascii "server")).elim [] fun server =>
    intsOf server [ascii "port", ascii "server_threads", ascii "client_threads"]) ++
  (root.find (ascii "load_balancer")).elim [] fun loadBalancer =>
    intsOf loadBalancer [ascii "port", ascii "health_interval_ms"] ++
    match loadBalancer.find (ascii "backends") with
    | some (.array elements) => elements.flatMap fun backend => intsOf backend [ascii "port"]
    | _ => []

theorem HasInt.congr {f g : ℤ → ℤ} {json : Json D} {key : Bytes} (keys : List Bytes) {z : ℤ}
    (h : HasInt f json key z) (hkey : key ∈ keys) (hfg : ∀ n ∈ intsOf json keys, f n = g n) :
    HasInt g json key z := by
  obtain ⟨n, hfind, rfl⟩ := h
  exact ⟨n, hfind, hfg n (List.mem_filterMap.mpr ⟨key, hkey, by simp [hfind]⟩)⟩

/-- Integers that are taken as they are and lie in the range of `int`. -/
theorem intsOf_fits {json : Json D} {keys : List Bytes}
    (h : ∀ key ∈ keys, ∃ z, HasInt id json key z ∧ Fits z) : ∀ n ∈ intsOf json keys, Fits n := by
  intro n hn
  obtain ⟨key, hkey, hfound⟩ := List.mem_filterMap.mp hn
  obtain ⟨z, ⟨n', hfind, rfl⟩, hfits⟩ := h key hkey
  simp only [hfind, Option.some.injEq] at hfound
  exact hfound ▸ hfits

theorem IsPort.fits {z : ℤ} (h : IsPort z) : Fits z := by
  obtain ⟨h1, h2⟩ := h
  constructor <;> omega

theorem IsCount.fits {z : ℤ} (h : IsCount z) : Fits z := by
  obtain ⟨h1, h2⟩ := h
  constructor <;> omega

section Root

variable {root server loadBalancer : Json D} {elements : List (Json D)} {n : ℤ}

theorem mem_readInts_server (hfind : root.find (ascii "server") = some server)
    (h : n ∈ intsOf server [ascii "port", ascii "server_threads", ascii "client_threads"]) :
    n ∈ readInts root := by
  unfold readInts
  rw [hfind]
  exact List.mem_append_left _ h

theorem mem_readInts_loadBalancer (hfind : root.find (ascii "load_balancer") = some loadBalancer)
    (h : n ∈ intsOf loadBalancer [ascii "port", ascii "health_interval_ms"]) :
    n ∈ readInts root := by
  unfold readInts
  rw [hfind]
  exact List.mem_append_right _ (List.mem_append_left _ h)

theorem mem_readInts_backends (hfind : root.find (ascii "load_balancer") = some loadBalancer)
    (hback : loadBalancer.find (ascii "backends") = some (.array elements)) {backend : Json D}
    (hmem : backend ∈ elements) (h : n ∈ intsOf backend [ascii "port"]) : n ∈ readInts root := by
  unfold readInts
  rw [hfind]
  refine List.mem_append_right _ (List.mem_append_right _ ?_)
  rw [hback]
  exact List.mem_flatMap.mpr ⟨backend, hmem, h⟩

end Root

theorem DescribesBackend.congr {f g : ℤ → ℤ} {backend : Json D} {config : BackendConfig}
    (h : DescribesBackend f backend config)
    (hfg : ∀ n ∈ intsOf backend [ascii "port"], f n = g n) :
    DescribesBackend g backend config :=
  ⟨h.object, h.ip, h.port.congr _ List.mem_cons_self hfg, h.isPort⟩

/-- Casts that agree on the integers of the file give the same meaning. -/
theorem Describes.congr {f g : ℤ → ℤ} {root : Json D} {required : Bool} {config : FileConfig}
    (h : Describes f root required config) (hfg : ∀ n ∈ readInts root, f n = g n) :
    Describes g root required config := by
  obtain ⟨⟨server, hserver, hobj, hs⟩, hrest⟩ := h
  have hsfg := fun n hn => hfg n (mem_readInts_server hserver hn)
  refine ⟨⟨server, hserver, hobj, hs.ip, hs.port.congr _ (by simp) hsfg,
    hs.serverThreads.congr _ (by simp) hsfg, hs.clientThreads.congr _ (by simp) hsfg,
    hs.isPort, hs.isServerThreads, hs.isClientThreads⟩, ?_⟩
  split at hrest
  · exact hrest
  · rename_i loadBalancer lb hfind hconfig
    have hlfg := fun n hn => hfg n (mem_readInts_loadBalancer hfind hn)
    obtain ⟨elements, hback, hlen, hall⟩ := hrest.backends
    refine ⟨hrest.object, hrest.ip, hrest.port.congr _ (by simp) hlfg,
      hrest.healthIntervalMs.congr _ (by simp) hlfg, hrest.isPort, hrest.isHealthIntervalMs,
      elements, hback, hlen, ?_⟩
    have hbfg : ∀ backend ∈ elements, ∀ n ∈ intsOf backend [ascii "port"], f n = g n :=
      fun backend hmem n hn => hfg n (mem_readInts_backends hfind hback hmem hn)
    refine ((List.forall₂_and_left _ _).mpr ⟨hbfg, hall⟩).imp ?_
    rintro backend config ⟨hsame, hone⟩
    exact hone.congr hsame
  · exact hrest.elim

/-- What a file says within the ranges of the fields fits into `int`. -/
theorem Describes.fits {root : Json D} {required : Bool} {config : FileConfig}
    (h : Describes id root required config) : ∀ n ∈ readInts root, Fits n := by
  obtain ⟨⟨server, hserver, -, hs⟩, hrest⟩ := h
  intro n hn
  unfold readInts at hn
  rw [hserver, List.mem_append] at hn
  rcases hn with hn | hn
  · refine intsOf_fits ?_ n hn
    simp only [List.mem_cons, List.not_mem_nil, or_false]
    rintro key (rfl | rfl | rfl)
    · exact ⟨_, hs.port, hs.isPort.fits⟩
    · exact ⟨_, hs.serverThreads, hs.isServerThreads.fits⟩
    · exact ⟨_, hs.clientThreads, hs.isClientThreads.fits⟩
  · split at hrest
    · rename_i hnone _
      rw [hnone] at hn
      cases hn
    · rename_i loadBalancer lb hfind hconfig
      rw [hfind, Option.elim_some, List.mem_append] at hn
      rcases hn with hn | hn
      · refine intsOf_fits ?_ n hn
        simp only [List.mem_cons, List.not_mem_nil, or_false]
        rintro key (rfl | rfl)
        · exact ⟨_, hrest.port, hrest.isPort.fits⟩
        · exact ⟨_, hrest.healthIntervalMs, hrest.isHealthIntervalMs.fits⟩
      · obtain ⟨elements, hback, -, hall⟩ := hrest.backends
        rw [hback] at hn
        obtain ⟨backend, hmem, hn⟩ := List.mem_flatMap.mp hn
        have hsome : ∀ backend ∈ elements, ∃ b, DescribesBackend id backend b :=
          ((List.forall₂_and_left _ _).mp (hall.imp fun _ b hb => ⟨⟨b, hb⟩, hb⟩)).1
        obtain ⟨b, hb⟩ := hsome backend hmem
        refine intsOf_fits ?_ n hn
        simp only [List.mem_singleton]
        rintro key rfl
        exact ⟨_, hb.port, hb.isPort.fits⟩
    · exact hrest.elim

/-- **The configuration.** `load_config` accepts exactly the files that describe a
configuration, and with the integers as written, unless the file passes all checks with
its integers cast to `int` and one of them does not fit into an `int`. -/
theorem loadConfig_as_written (root : Json D) (required : Bool) :
    (((∃ config, loadConfig root required = .ok config) ↔
        ∃ config, Describes id root required config) ∧
      ∀ config, loadConfig root required = .ok config → Describes id root required config) ↔
    ((∃ config, Describes int32 root required config) → ∀ n ∈ readInts root, Fits n) := by
  simp only [loadConfig_eq_ok]
  constructor
  · rintro ⟨-, h⟩ ⟨config, hconfig⟩
    exact (h config hconfig).fits
  · intro h
    have hdown : ∀ config, Describes int32 root required config →
        Describes id root required config := by
      intro config hconfig
      exact hconfig.congr fun n hn => int32_of_fits (h ⟨config, hconfig⟩ n hn)
    refine ⟨⟨fun ⟨config, hconfig⟩ => ⟨config, hdown config hconfig⟩, ?_⟩, hdown⟩
    rintro ⟨config, hconfig⟩
    exact ⟨config, hconfig.congr fun n hn => (int32_of_fits (hconfig.fits n hn)).symm⟩

/-- A file with the port `4294967376`, which is `80` above `2 ^ 32`. -/
def wrappedPort : Json Unit :=
  .object [(ascii "server", .object
    [(ascii "client_threads", .integer 1), (ascii "ip", .string (ascii "::1")),
      (ascii "port", .integer 4294967376), (ascii "server_threads", .integer 1)])]

/-- It is accepted, and the server binds to port `80`. -/
theorem loadConfig_wrappedPort :
    (∃ config, loadConfig wrappedPort false = .ok config ∧ config.server.port = 80) ∧
      ¬ ∃ config, Describes id wrappedPort false config := by
  constructor
  · exact ⟨⟨⟨ascii "::1", 80, 1, 1⟩, none⟩, by decide, rfl⟩
  · rintro ⟨config, hconfig⟩
    have hfits := hconfig.fits 4294967376 (by decide)
    exact absurd hfits.2 (by decide)

end Fits

end LinkScheduling
