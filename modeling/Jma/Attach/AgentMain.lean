import Jma.Attach.Instrumentation

set_option autoImplicit false

/-! # `AgentMain`

One call of `agentmain`. `preCheckAndConfig` writes the arguments into `GlobalConfig` and then
checks them, the heartbeat thread is started, the call graph is walked, and the transformer is
published and registered. What lies outside the agent is `AgentEnv`: the JSON parser, the answers of
the boot's HTTP server, the loaded classes and the class path. -/

namespace Jma

/-- `Settings.HTTP_HOST`. -/
def HTTP_HOST : String := "127.0.0.1"

structure AgentParams where
  port : Int
  method : Option String
  clazzName : Option String
  deriving DecidableEq, Repr

/-- How `HttpUtil.get` ends; the response may be `null`. -/
inductive HttpAnswer where
  | threw
  | returned (resp : Option String)
  deriving DecidableEq, Repr

/-- What a call of `agentmain` finds around it. -/
structure AgentEnv where
  /-- `JSONUtil.toBean(args, AgentParams.class)`, `none` when it throws. -/
  toBean : String → Option AgentParams
  /-- `HttpUtil.get(url)` in the attempts of `checkHttpConnection`. -/
  get : Nat → String → HttpAnswer
  /-- `inst.getAllLoadedClasses()` in `preCheckAndConfig`, and later in `agentmain`. -/
  loadedAtCheck : List LoadedClass
  allLoadedClassed : List LoadedClass
  classPath : ClassUniverse
  fold : Char → Char
  /-- The `Instrumentation` of this call. -/
  inst : Nat

inductive AgentThrowable where
  | runtimeException (message : String)
  /-- Whatever `JSONUtil.toBean` throws. -/
  | jsonException
  | nullPointerException
  /-- Whatever `readClassMethodHierarchy` throws. -/
  | hierarchy (e : Throwable)
  deriving DecidableEq, Repr

namespace HttpTransUtil

/-- `checkHttpConnection`: up to three attempts, the first that gets a response is enough. -/
def checkHttpConnection (get : Nat → String → HttpAnswer) (httpPort : Int) : Bool :=
  let url := "http://" ++ HTTP_HOST ++ ":" ++ toString httpPort ++ "//heartbeat"
  [0, 1, 2].any (fun i =>
    match get i url with
    | .threw => false
    | .returned resp => resp.isSome)

end HttpTransUtil

namespace AgentMain

/-- The three writes of `preCheckAndConfig`. -/
def config (cfg : GlobalConfig) (params : AgentParams) (clazzName : String) : GlobalConfig :=
  ((cfg.setEnterClazzName (replaceAll clazzName '.' '/')).setEnterMethod params.method).setHttpPort
    params.port

/-- `preCheckAndConfig(inst, args)`: its result or exception, and the configuration it leaves. -/
def preCheckAndConfig (env : AgentEnv) (cfg : GlobalConfig) :
    Option String → Except AgentThrowable Bool × GlobalConfig
  | none => (.error (.runtimeException "args error:null [clazzPath methodName]"), cfg)
  | some args =>
      match env.toBean args with
      | none => (.error .jsonException, cfg)
      | some params =>
          match params.clazzName with
          | none => (.error .nullPointerException, cfg)
          | some clazzName =>
              -- written before anything is checked, and not taken back
              let cfg := config cfg params clazzName
              if !HttpTransUtil.checkHttpConnection env.get cfg.httpPort then (.ok false, cfg)
              else if env.loadedAtCheck.any (fun c => some c.name == cfg.enterClassName) then
                (.ok true, cfg)
              else
                (.error (.runtimeException
                  ("class[" ++ cfg.enterClassName.getD "null" ++ "] not loaded")), cfg)

/-- The call of `readClassMethodHierarchy` on the configured entry. A `null` method name equals no
    name, like the empty string. -/
def readHierarchy (env : AgentEnv) (cfg : GlobalConfig) :
    Except AgentThrowable (List CMethodInfo) :=
  match cfg.enterClazzName with
  | none => .error .nullPointerException
  | some clazzName =>
      (MethodHierarchyUtil.readClassMethodHierarchy env.classPath env.fold clazzName
        (cfg.enterMethod.getD "")).mapError .hierarchy

end AgentMain

/-- The parts of the target JVM that a call of `agentmain` changes. -/
structure AgentState where
  config : GlobalConfig
  jvm : Jvm
  /-- How many heartbeat threads were started. -/
  heartbeats : Nat

open AgentMain in
/-- `agentmain(args, inst)`; `tct` is the `TimeCostTransformer` that the call makes. -/
def agentmain (weave : Weave) (env : AgentEnv) (tct : Nat) (s : AgentState) (args : Option String) :
    Except AgentThrowable Unit × AgentState :=
  match preCheckAndConfig env s.config args with
  | (.error e, cfg) => (.error e, { s with config := cfg })
  | (.ok false, cfg) => (.ok (), { s with config := cfg })
  | (.ok true, cfg) =>
      let s := { s with config := cfg, heartbeats := s.heartbeats + 1 }
      match readHierarchy env cfg with
      | .error e => (.error e, s)
      | .ok methods =>
          let classSet := finalClassSet methods env.allLoadedClassed
          let jvm := s.jvm.newTransformer tct (finalTransClasses methods env.allLoadedClassed)
          (.ok (),
           { s with
             config :=
               ((cfg.setTimeCostTransformer tct).setInstrument env.inst).setTransClassSet classSet
             jvm :=
               (jvm.addTransformer env.inst (.timeCost tct)).retransformClasses weave classSet })

end Jma
