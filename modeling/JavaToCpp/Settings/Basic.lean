/-
  Settings from the environment.

  Each setting has a variable and a value that it has without the variable.  A variable that does
  not make sense for its setting counts as missing.
-/
import JavaToCpp.Json.Basic
import JavaToCpp.Text.Literal
import JavaToCpp.Time.Duration

namespace JavaToCpp

abbrev Environment := List (Text × Text)

namespace Environment

def get? (env : Environment) (name : String) : Option Text :=
  (env.find? fun v => v.1 == Text.ofString name).map Prod.snd

def text (env : Environment) (name : String) (default : Text) : Text := (env.get? name).getD default

def bool (env : Environment) (name : String) (default : Bool) : Bool :=
  ((env.get? name).bind Text.toBool?).getD default

def int (env : Environment) (name : String) (default : Int) : Int :=
  ((env.get? name).bind Text.toInt?).getD default

def duration (env : Environment) (name : String) (default : Int) : Int :=
  ((env.get? name).bind fun t => (Duration.parse t).toOption).getD default

end Environment

structure Settings.Database where
  enabled : Bool := false
  host : Text := "localhost"
  port : Text := "5432"
  user : Text := "postgres"
  password : Text := []
  name : Text := "transpiler"
  sslMode : Text := "disable"
  searchPath : Text := "public"
deriving DecidableEq, Repr

structure Settings where
  database : Settings.Database := {}
  secret : Text := "your-secret-key"
  tokenSpan : Int := 24 * Duration.hour
  serverPort : Text := "8080"
  readTimeout : Int := 15 * Duration.second
  writeTimeout : Int := 15 * Duration.second
  requestTimeout : Int := 30 * Duration.second
  allowedOrigins : List Text := ["*"]
  grammarPath : Text := []
  tablePrefix : Text := "transpiler_"
  maxSourceBytes : Int := 1048576
  cacheSpan : Int := 10 * Duration.minute
  cleanupEvery : Int := Duration.minute
  logLevel : Text := "info"
deriving DecidableEq, Repr

namespace Settings

def databaseOf (env : Environment) : Database :=
  let d : Database := {}
  { enabled := env.bool "DB_ENABLED" d.enabled
    host := env.text "DB_HOST" d.host
    port := env.text "DB_PORT" d.port
    user := env.text "DB_USER" d.user
    password := env.text "DB_PASSWORD" d.password
    name := env.text "DB_NAME" d.name
    sslMode := env.text "DB_SSLMODE" d.sslMode
    searchPath := env.text "DB_SCHEMA" d.searchPath }

def sources : List String := [
  "DB_ENABLED", "DB_HOST", "DB_PORT", "DB_USER", "DB_PASSWORD", "DB_NAME", "DB_SSLMODE", "DB_SCHEMA",
  "JWT_SECRET", "JWT_EXPIRY", "SERVER_PORT", "REQUEST_TIMEOUT", "CORS_ORIGIN", "GRAMMAR_PATH",
  "TABLE_PREFIX", "MAX_SOURCE_BYTES", "CACHE_TTL", "CACHE_CLEANUP", "LOG_LEVEL"]

def ofEnvironment (env : Environment) : Settings :=
  let s : Settings := {}
  { s with
    database := databaseOf env
    secret := env.text "JWT_SECRET" s.secret
    tokenSpan := env.duration "JWT_EXPIRY" s.tokenSpan
    serverPort := env.text "SERVER_PORT" s.serverPort
    requestTimeout := env.duration "REQUEST_TIMEOUT" s.requestTimeout
    allowedOrigins := [env.text "CORS_ORIGIN" "*"]
    grammarPath := env.text "GRAMMAR_PATH" s.grammarPath
    tablePrefix := env.text "TABLE_PREFIX" s.tablePrefix
    maxSourceBytes := env.int "MAX_SOURCE_BYTES" s.maxSourceBytes
    cacheSpan := env.duration "CACHE_TTL" s.cacheSpan
    cleanupEvery := env.duration "CACHE_CLEANUP" s.cleanupEvery
    logLevel := env.text "LOG_LEVEL" s.logLevel }

def Database.toJson (d : Database) : Json :=
  .object [("enabled", .bool d.enabled), ("host", .string d.host), ("port", .string d.port),
    ("user", .string d.user), ("password", .string d.password), ("name", .string d.name),
    ("sslmode", .string d.sslMode), ("schema", .string d.searchPath)]

def toJson (s : Settings) : Json :=
  .object [
    ("database", s.database.toJson),
    ("jwt", .object [("secret", .string s.secret), ("expiry_period", .int s.tokenSpan)]),
    ("server", .object [("port", .string s.serverPort), ("read_timeout", .int s.readTimeout),
      ("write_timeout", .int s.writeTimeout), ("request_timeout", .int s.requestTimeout),
      ("allowed_origins", .array (s.allowedOrigins.map .string))]),
    ("translator", .object [("grammar_path", .string s.grammarPath),
      ("table_prefix", .string s.tablePrefix), ("max_source_bytes", .int s.maxSourceBytes),
      ("cache_ttl", .int s.cacheSpan), ("cleanup_freq", .int s.cleanupEvery)]),
    ("log_level", .string s.logLevel)]

end Settings

structure Options where
  tablePrefix : Text := "transpiler_"
  grammarPath : Text := []
deriving DecidableEq, Repr

def Options.blank : Options := ⟨[], []⟩

end JavaToCpp
