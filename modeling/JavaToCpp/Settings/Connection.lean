/-
  How to reach the database.

  The settings of the database are written in two ways: as keywords with values, and as a URL.
-/
import JavaToCpp.Settings.Basic
import JavaToCpp.Text.Percent

namespace JavaToCpp.Settings.Database

def keywords (d : Database) : Text :=
  "host=" ++ d.host ++ " port=" ++ d.port ++ " user=" ++ d.user ++ " password=" ++ d.password ++
    " dbname=" ++ d.name ++ " sslmode=" ++ d.sslMode ++ " search_path=" ++ d.searchPath

/-- The path of the URL: the name of the database after a stroke. -/
def urlPath (d : Database) : Text :=
  let path := if d.name = Text.ofString "*" then d.name else Text.percentEscape .path d.name
  if path.isEmpty || path.head? == some (Text.byte '/') then path else Text.byte '/' :: path

def url (d : Database) : Text :=
  "postgres://" ++ Text.percentEscape .user d.user ++ ":" ++ Text.percentEscape .user d.password ++
    "@" ++ Text.percentEscape .host (d.host ++ ":" ++ d.port) ++ d.urlPath ++
    "?search_path=" ++ Text.percentEscape .query d.searchPath ++
    "&sslmode=" ++ Text.percentEscape .query d.sslMode

end JavaToCpp.Settings.Database
