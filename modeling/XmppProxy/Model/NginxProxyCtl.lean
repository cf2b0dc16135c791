import Mathlib.Data.List.Infix
import Mathlib.Logic.Function.Basic
import XmppProxy.Model.Bytes

/-! The script that adds and removes the locations of the web server. -/

namespace XmppProxy.NginxProxyCtl

/-- `NGINX_CONF_DIR`: the contents of its files, by name. -/
abbrev ConfDir := Bytes → Option Bytes

/-- The programs that the script calls, and the contents of `TEMPLATE_FILE`. `nginx` may accept any
configurations. -/
structure Host where
  md5sum : Bytes → Bytes
  envsubst : List (Bytes × Bytes) → Bytes → Bytes
  template : Bytes
  nginxTest : ConfDir → Bool

inductive Exit where
  | zero (message : Bytes)
  /-- Status 1, after a message. -/
  | error (message : Bytes)
  /-- `set -e` after a failed `nginx -s reload`. -/
  | reloadFailed
  deriving DecidableEq, Repr

def Exit.isZero : Exit → Bool
  | zero _ => true
  | _ => false

def validateLocationPath (path : Bytes) : Except Bytes Unit :=
  if path = [] then .error (bytes "ERROR: Location path cannot be empty")
  else if bytes "/" <+: path then .ok ()
  else .error (bytes "ERROR: Location path must start with /")

def validateUpstreamUrl (url : Bytes) : Except Bytes Unit :=
  if url = [] then .error (bytes "ERROR: Upstream URL cannot be empty")
  else if bytes "http://" <+: url ∨ bytes "https://" <+: url then .ok ()
  else .error (bytes "ERROR: Upstream URL must start with http:// or https://")

/-- `echo -n` takes an argument that reads like options for options. -/
def echoN (arg : Bytes) : Bytes :=
  match arg with
  | 45 :: b :: options => if ∀ o ∈ b :: options, o ∈ bytes "neE" then [] else arg
  | _ => arg

def configFile (host : Host) (location : Bytes) : Bytes :=
  bytes "proxy-" ++ host.md5sum (echoN location) ++ bytes ".conf"

def websocketHeaders (options : Bytes) : Bytes :=
  if bytes "websocket" <:+: options then
    bytes "proxy_set_header Upgrade $http_upgrade;\n    proxy_set_header Connection \"upgrade\";"
  else []

/-- An unset `PROXY_TIMEOUT` is empty here, and has the same default. -/
def generateProxyConfig (host : Host) (location upstream options proxyTimeout : Bytes) : Bytes :=
  host.envsubst
    [(bytes "LOCATION_PATH", location),
      (bytes "UPSTREAM_URL", upstream),
      (bytes "WEBSOCKET_HEADERS", websocketHeaders options),
      (bytes "CUSTOM_HEADERS", []),
      (bytes "PROXY_TIMEOUT", if proxyTimeout = [] then bytes "60s" else proxyTimeout)]
    host.template

/-- `nginx -t` is asked before the file is in its place, `nginx -s reload` after it. -/
def addProxy (host : Host) (location upstream options proxyTimeout : Bytes) (dir : ConfDir) : Exit × ConfDir :=
  match validateLocationPath location with
  | .error e => (.error e, dir)
  | .ok () =>
    match validateUpstreamUrl upstream with
    | .error e => (.error e, dir)
    | .ok () =>
      if (dir (configFile host location)).isSome then
        (.error (bytes "ERROR: Proxy for location " ++ location ++ bytes " already exists"), dir)
      else
        let tempFile := generateProxyConfig host location upstream options proxyTimeout
        if !host.nginxTest dir then (.error (bytes "ERROR: nginx configuration test failed"), dir)
        else
          let dir := Function.update dir (configFile host location) (some tempFile)
          if host.nginxTest dir then
            (.zero (bytes "Proxy added: " ++ location ++ bytes " -> " ++ upstream), dir)
          else (.reloadFailed, dir)

def removeProxy (host : Host) (location : Bytes) (dir : ConfDir) : Exit × ConfDir :=
  if (dir (configFile host location)).isNone then
    (.error (bytes "ERROR: Proxy for location " ++ location ++ bytes " not found"), dir)
  else
    let dir := Function.update dir (configFile host location) none
    if host.nginxTest dir then (.zero (bytes "Proxy removed: " ++ location), dir)
    else (.reloadFailed, dir)

inductive Command where
  | add (location upstream options proxyTimeout : Bytes)
  | remove (location : Bytes)
  deriving DecidableEq, Repr

def Command.exec (host : Host) (dir : ConfDir) : Command → Exit × ConfDir
  | add location upstream options proxyTimeout => addProxy host location upstream options proxyTimeout dir
  | remove location => removeProxy host location dir

end XmppProxy.NginxProxyCtl
