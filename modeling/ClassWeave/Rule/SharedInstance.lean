import ClassWeave.Rule.Basic

/-!
Rules that keep the worlds of shared instances: worlds whose name has a certain start are neither
deleted nor removed, are saved, and have return portals of their own.
-/

namespace ClassWeave.SharedInstance

def namePrefix : String := "instance-shared-"

def world : ClassName := ⟨"com/hypixel/hytale/server/core/universe/world/World", by decide⟩

def worldConfig : ClassName :=
  ⟨"com/hypixel/hytale/server/core/universe/world/WorldConfig", by decide⟩

def saveSystem : ClassName :=
  ⟨"com/hypixel/hytale/server/core/universe/system/WorldConfigSaveSystem", by decide⟩

def removalSystem : ClassName :=
  ⟨"com/hypixel/hytale/builtin/instances/removal/RemovalSystem", by decide⟩

def removalCondition : ClassName :=
  ⟨"com/hypixel/hytale/builtin/instances/removal/RemovalCondition", by decide⟩

def instanceConfig : ClassName :=
  ⟨"com/hypixel/hytale/builtin/instances/config/InstanceWorldConfig", by decide⟩

def summonPage : ClassName :=
  ⟨"com/hypixel/hytale/builtin/portals/ui/PortalDeviceSummonPage", by decide⟩

def portalWorld : ClassName :=
  ⟨"com/hypixel/hytale/builtin/portals/resources/PortalWorld", by decide⟩

def universeClass : ClassName := ⟨"com/hypixel/hytale/server/core/universe/Universe", by decide⟩

def configProvider : ClassName :=
  ⟨"com/hypixel/hytale/server/core/universe/world/WorldConfigProvider", by decide⟩

def chunkStore : ClassName :=
  ⟨"com/hypixel/hytale/server/core/universe/world/storage/ChunkStore", by decide⟩

def entityStore : ClassName :=
  ⟨"com/hypixel/hytale/server/core/universe/world/storage/EntityStore", by decide⟩

def fileUtil : ClassName := ⟨"com/hypixel/hytale/server/core/util/io/FileUtil", by decide⟩
def store : ClassName := ⟨"com/hypixel/hytale/component/Store", by decide⟩
def logger : ClassName := ⟨"com/hypixel/hytale/logger/HytaleLogger", by decide⟩
def loggerApi : ClassName := ⟨"com/hypixel/hytale/logger/HytaleLogger$Api", by decide⟩
def future : ClassName := ⟨"java/util/concurrent/CompletableFuture", by decide⟩
def level : ClassName := ⟨"java/util/logging/Level", by decide⟩
def path : ClassName := ⟨"java/nio/file/Path", by decide⟩
def uuid : ClassName := ⟨"java/util/UUID", by decide⟩

/-- Call of a method of an object. -/
def call (kind : CallKind) (receiver : Expr) (owner : ClassName) (name : String)
    (parameters : List FieldType) (returnType : Option FieldType) (arguments : List Expr) : Expr :=
  .call kind owner.text name (MethodDescriptor.render ⟨parameters, returnType⟩) (some receiver)
    arguments

def callStatic (owner : ClassName) (name : String) (parameters : List FieldType)
    (returnType : Option FieldType) (arguments : List Expr) : Expr :=
  .call .static owner.text name (MethodDescriptor.render ⟨parameters, returnType⟩) none arguments

/-- Value that a method without parameters returns. -/
def get (receiver : Expr) (owner : ClassName) (name : String) (type : FieldType) : Expr :=
  call .virtual receiver owner name [] (some type) []

def getName (receiver : Expr) : Expr := get receiver world "getName" (.object .string)

def getConfig (receiver : Expr) : Expr := get receiver world "getWorldConfig" (.object worldConfig)

/-- Is it the name of a shared instance? -/
def isShared (name : Expr) : Cond :=
  .all [.notNull name,
    .isTrue (call .virtual name .string "startsWith" [.object .string] (some .boolean)
      [.string namePrefix])]

def whenTrue (condition : Cond) (statements : List Stmt) : Stmt := .branch condition statements []

/-- A shared world is not deleted when it is removed; a failure to delete another is logged. -/
def validateDelete : List Stmt :=
  let field (name : String) (type : FieldType) : Expr :=
    .getField .this ⟨world.text, name, type.render⟩
  let severe := call .virtual (field "logger" (.object logger)) logger "at" [.object level]
    (some (.object loggerApi)) [.getStatic ⟨level.text, "SEVERE", (FieldType.object level).render⟩]
  let withCause := call .interface severe loggerApi "withCause" [.object .throwable]
    (some (.object loggerApi)) [.variable "error"]
  let delete := callStatic fileUtil "deleteDirectory" [.object path] none
    [get .this world "getSavePath" (.object path)]
  let report := call .interface withCause loggerApi "log" [.object .string] none
    [.string "Exception while deleting world on remove:"]
  [whenTrue (isShared (field "name" (.object .string))) [.leave none],
    whenTrue
      (.isTrue (get (field "worldConfig" (.object worldConfig)) worldConfig "isDeleteOnRemove"
        .boolean))
      [.tryCatch [.eval delete] (some ClassName.throwable.text) (some "error") [.eval report]],
    .leave none]

/-- The configuration of a shared world no longer asks for deletion, and counts as changed. -/
def saveConfigAndResources : List Stmt :=
  let config : Expr := .variable "config"
  let flag (name : String) : Cond := .isTrue (get config worldConfig name .boolean)
  let clear (getter setter : String) : Stmt := whenTrue (flag getter)
    [.eval (call .virtual config worldConfig setter [.boolean] none [.bool false])]
  let saveResources (getter : String) (holder : ClassName) : Expr :=
    get (get (get (.argument 0) world getter (.object holder)) holder "getStore" (.object store))
      store "saveAllResources" (.object future)
  let allOf (futures : List Expr) : Expr :=
    callStatic future "allOf" [.arrayOf (.object future)] (some (.object future))
      [.objectArray future.text futures]
  let current := callStatic universeClass "get" [] (some (.object universeClass)) []
  let provider := get current universeClass "getWorldConfigProvider"
    (.object configProvider)
  let saveConfig := call .interface provider configProvider "save"
    [.object path, .object worldConfig, .object world] (some (.object future))
    [get (.argument 0) world "getSavePath" (.object path), getConfig (.argument 0), .argument 0]
  let stores :=
    [saveResources "getChunkStore" chunkStore, saveResources "getEntityStore" entityStore]
  [.declare "config" (FieldType.object worldConfig).render (getConfig (.argument 0)),
    .declare "name" (FieldType.object .string).render (getName (.argument 0)),
    whenTrue (isShared (.variable "name"))
      [clear "isDeleteOnUniverseStart" "setDeleteOnUniverseStart",
        clear "isDeleteOnRemove" "setDeleteOnRemove",
        .eval (call .virtual config worldConfig "markChanged" [] none [])],
    whenTrue (.all [flag "isSavingConfig", flag "consumeHasChanged"])
      [.leave (some (allOf (stores ++ [saveConfig])))],
    .leave (some (allOf stores))]

/-- A world is removed if it is not shared, has conditions for its removal, and meets them all. Each
of them is evaluated. -/
def shouldRemove : List Stmt :=
  let conditions : FieldType := .arrayOf (.object removalCondition)
  let external := get (.argument 0) store "getExternalData" (.object .object)
  let test := call .interface (.variable "condition") removalCondition "shouldRemoveWorld"
    [.object store] (some .boolean) [.argument 0]
  [.declare "world" (FieldType.object world).render
      (get (.checkCast external chunkStore.text) chunkStore "getWorld" (.object world)),
    .declare "shared" FieldType.boolean.render (.bool false),
    whenTrue (isShared (getName (.variable "world"))) [.assign "shared" (.bool true)],
    .declare "config" (FieldType.object instanceConfig).render
      (callStatic instanceConfig "get" [.object worldConfig] (some (.object instanceConfig))
        [getConfig (.variable "world")]),
    whenTrue (.isNull (.variable "config")) [.leave (some (.bool false))],
    .declare "conditions" conditions.render
      (get (.variable "config") instanceConfig "getRemovalConditions" conditions),
    whenTrue (.isFalse (.arrayLength (.variable "conditions"))) [.leave (some (.bool false))],
    .allOf "remove" (.variable "conditions") "condition" (.isTrue test),
    whenTrue (.isTrue (.variable "shared")) [.leave (some (.bool false))],
    .leave (some (.variable "remove"))]

/-- The portal back from a shared world leads to the instance with that world's identity. -/
def returnPortal : List Guard :=
  [⟨.all [.notNull (.argument 0), isShared (getName (.argument 0))],
    [.setArgument 2 (get (getConfig (.argument 0)) worldConfig "getUuid" (.object uuid))]⟩]

/-- A rule that replaces the body of a method. -/
def replacing (description : String) (target : MethodSignature) (body : List Stmt)
    (priority : Int32) : PatchRule :=
  ⟨description, target, .replace ⟨target.descriptor.render, body⟩, priority⟩

def rules : List PatchRule :=
  [replacing "skip deleting shared instance worlds on removal"
      ⟨world, ⟨"validateDeleteOnRemove", by decide⟩, ⟨[], none⟩⟩ validateDelete 100,
    replacing "persist shared instance worlds when saving their config"
      ⟨saveSystem, ⟨"saveWorldConfigAndResources", by decide⟩,
        ⟨[.object world], some (.object future)⟩⟩
      saveConfigAndResources 100,
    replacing "never remove shared instance worlds, evaluate every removal condition"
      ⟨removalSystem, ⟨"shouldRemoveWorld", by decide⟩, ⟨[.object store], some .boolean⟩⟩
      shouldRemove 50,
    ⟨"return portals of shared instances use the instance's own UUID",
      ⟨summonPage, ⟨"spawnReturnPortal", by decide⟩,
        ⟨[.object world, .object portalWorld, .object uuid, .object .string],
          some (.object future)⟩⟩,
      .prologue ⟨returnPortal⟩, 0⟩]

end ClassWeave.SharedInstance
